/-
The words that `page_in` writes: which they are, and that over a run of calls they lie in page tables as long as no
call goes down through a large page.
-/
import Icarus.Memory.LargePages

namespace Icarus.Memory

open Icarus.Base

/-! ## Events -/

/-- What `page_in` does to memory: it zeroes the frame of a new table, or writes an entry. -/
inductive TableEvent
  | zeroed (table : Nat)
  | written (addr : Nat)
  deriving DecidableEq

/-- The bytes that change in an event. -/
def TableEvent.Covers : TableEvent → Nat → Prop
  | .zeroed table, a => table ≤ a ∧ a < table + defaultPageSize
  | .written addr, a => addr ≤ a ∧ a < addr + 8

section
variable {σ : Type} (alloc : σ → Nat × σ)

/-- The events of `enterTable`. An entry that is present is written when there is a right to add. -/
def enterEvents (permissions table index : Nat) (m : Mem) (s : σ) : List TableEvent :=
  if (entryAt m table index).present then
    if permBit permissions userAccessShift || permBit permissions writeableShift then [.written (table + 8 * index)]
    else []
  else
    let (next, _) := alloc s
    if next = frameAllocFailed then [] else [.zeroed next, .written (table + 8 * index)]

/-- The events of `page_in`. -/
def pageInEvents (pml4 virtAddr pageSize permissions : Nat) (m : Mem) (s : σ) : List TableEvent :=
  enterEvents alloc permissions pml4 (vaPml4Index virtAddr) m s ++
  match enterTable alloc permissions pml4 (vaPml4Index virtAddr) m s with
  | (none, _, _) => []
  | (some pdptTable, m, s) =>
    let index := vaPdptIndex virtAddr
    if pageSize = superPs then [.written (pdptTable + 8 * index)]
    else
      enterEvents alloc permissions pdptTable index m s ++
      match enterTable alloc permissions pdptTable index m s with
      | (none, _, _) => []
      | (some pdTable, m, s) =>
        let index := vaPdIndex virtAddr
        if pageSize = hugePs then [.written (pdTable + 8 * index)]
        else
          enterEvents alloc permissions pdTable index m s ++
          match enterTable alloc permissions pdTable index m s with
          | (none, _, _) => []
          | (some ptTable, _, _) => [.written (ptTable + 8 * vaPtIndex virtAddr)]

/-- The events of the levels above the page. -/
def descendEvents (permissions virtAddr stop : Nat) : (n table : Nat) → Mem → σ → List TableEvent
  | 0, _, _, _ => []
  | n + 1, table, m, s =>
    enterEvents alloc permissions table (vaIndex virtAddr (stop + n + 1)) m s ++
    match enterTable alloc permissions table (vaIndex virtAddr (stop + n + 1)) m s with
    | (none, _, _) => []
    | (some next, m, s) => descendEvents permissions virtAddr stop n next m s

/-- The event of the entry at the end of a descent. -/
def leafEvents (virtAddr stop : Nat) : Option Nat → List TableEvent
  | none => []
  | some table => [.written (table + 8 * vaIndex virtAddr stop)]

theorem pageInEvents_eq (pml4 virtAddr pageSize permissions : Nat) (m : Mem) (s : σ) :
    pageInEvents alloc pml4 virtAddr pageSize permissions m s =
      descendEvents alloc permissions virtAddr (leafLevel pageSize) (3 - leafLevel pageSize) pml4 m s ++
        leafEvents virtAddr (leafLevel pageSize)
          (descendTo alloc permissions virtAddr (leafLevel pageSize) (3 - leafLevel pageSize) pml4 m s).1 := by
  obtain ⟨h3, h2, h1, h0⟩ := vaIndex_macros virtAddr
  unfold pageInEvents leafLevel
  rw [h3, h2, h1, h0]
  by_cases hsuper : pageSize = superPs
  · simp only [hsuper, reduceIte, descendEvents, descendTo]
    rcases enterTable alloc permissions pml4 (vaIndex virtAddr 3) m s with ⟨_ | t3, m3, s3⟩ <;> simp [leafEvents]
  simp only [if_neg hsuper]
  by_cases hhuge : pageSize = hugePs
  · simp only [hhuge, reduceIte, descendEvents, descendTo]
    rcases enterTable alloc permissions pml4 (vaIndex virtAddr 3) m s with ⟨_ | t3, m3, s3⟩
    · simp [leafEvents]
    · rcases h : enterTable alloc permissions t3 (vaIndex virtAddr 2) m3 s3 with ⟨_ | t2, m2, s2⟩ <;>
        simp [h, leafEvents]
  · simp only [if_neg hhuge, descendEvents, descendTo]
    rcases enterTable alloc permissions pml4 (vaIndex virtAddr 3) m s with ⟨_ | t3, m3, s3⟩
    · simp [leafEvents]
    · rcases h : enterTable alloc permissions t3 (vaIndex virtAddr 2) m3 s3 with ⟨_ | t2, m2, s2⟩
      · simp [h, leafEvents]
      · rcases h' : enterTable alloc permissions t2 (vaIndex virtAddr 1) m2 s2 with ⟨_ | t1, m1, s1⟩ <;>
          simp [h, h', leafEvents]

/-! ## Nothing else is written -/

theorem setEntry_unwritten {m : Mem} {table index a : Nat} {e : Entry}
    (h : ¬(TableEvent.written (table + 8 * index)).Covers a) : setEntry m table index e a = m a := by
  unfold TableEvent.Covers at h
  exact Mem.store_of_lt (by omega)

theorem setEntry_self (m : Mem) (table index : Nat) : setEntry m table index (entryAt m table index) = m :=
  Mem.store_load_same m _ 8

/-- A byte that no event covers keeps its value. -/
theorem enterTable_unwritten {permissions table index : Nat} {m : Mem} {s : σ} {a : Nat}
    (h : ∀ e ∈ enterEvents alloc permissions table index m s, ¬e.Covers a) :
    (enterTable alloc permissions table index m s).2.1 a = m a := by
  unfold enterEvents at h
  unfold enterTable
  split_ifs at h ⊢ with hp hrights
  · exact setEntry_unwritten (h _ (List.mem_singleton_self _))
  · -- without rights to add the entry is what it was
    rw [Bool.or_eq_true, not_or] at hrights
    have hsame : applyUpperPerms permissions (entryAt m table index) = entryAt m table index := by
      unfold applyUpperPerms
      rw [if_neg hrights.1, if_neg hrights.2]
    rw [hsame, setEntry_self]
  · dsimp only at h ⊢
    split_ifs at h ⊢ with hfail
    · rfl
    · have hzeroed := h (.zeroed (alloc s).1) (by simp)
      have hwritten := h (.written (table + 8 * index)) (by simp)
      refine (setEntry_unwritten hwritten).trans ((setEntry_unwritten hwritten).trans ?_)
      unfold TableEvent.Covers at hzeroed
      exact Mem.fill_of_lt (by omega)

theorem descendTo_unwritten {permissions virtAddr stop : Nat} {a : Nat} : ∀ (n table : Nat) (m : Mem) (s : σ),
    (∀ e ∈ descendEvents alloc permissions virtAddr stop n table m s, ¬e.Covers a) →
      (descendTo alloc permissions virtAddr stop n table m s).2.1 a = m a
  | 0, _, _, _, _ => rfl
  | n + 1, table, m, s, h => by
    unfold descendEvents at h
    have hstep := enterTable_unwritten alloc fun e he => h e (List.mem_append_left _ he)
    unfold descendTo
    rcases hent : enterTable alloc permissions table (vaIndex virtAddr (stop + n + 1)) m s with ⟨_ | next, m₁, s₁⟩
    · rwa [hent] at hstep
    · rw [hent] at hstep h
      exact (descendTo_unwritten n next m₁ s₁ fun e he => h e (List.mem_append_right _ he)).trans hstep

/-- `page_in` writes what its events cover and nothing else. -/
theorem pageIn_unwritten {pml4 virtAddr physAddr pageSize permissions : Nat} {m : Mem} {s : σ} {a : Nat}
    (h : ∀ e ∈ pageInEvents alloc pml4 virtAddr pageSize permissions m s, ¬e.Covers a) :
    (pageIn alloc pml4 virtAddr physAddr pageSize permissions m s).2.1 a = m a := by
  rw [pageInEvents_eq] at h
  have hdesc := descendTo_unwritten alloc (3 - leafLevel pageSize) pml4 m s fun e he => h e (List.mem_append_left _ he)
  rw [pageIn_eq]
  rcases hd : descendTo alloc permissions virtAddr (leafLevel pageSize) (3 - leafLevel pageSize) pml4 m s
    with ⟨_ | table, m₁, s₁⟩
  · rwa [hd] at hdesc
  · rw [hd] at hdesc h
    exact (setEntry_unwritten (h _ (List.mem_append_right _ (List.mem_singleton_self _)))).trans hdesc

end

/-! ## Words of tables -/

/-- All that is written lies in the frames of `known` and in frames zeroed as tables before, and a new table is a
frame. -/
def WritesTables : (known : Set Nat) → List TableEvent → Prop
  | _, [] => True
  | known, .zeroed table :: es =>
    (∀ a, (TableEvent.zeroed table).Covers a → a / 4096 * 4096 = table) ∧ WritesTables (insert table known) es
  | known, .written addr :: es =>
    (∀ a, (TableEvent.written addr).Covers a → a / 4096 * 4096 ∈ known) ∧ WritesTables known es

/-- The frames that become tables. -/
def zeroedTables (es : List TableEvent) : Set Nat := {t | .zeroed t ∈ es}

section
variable {known : Set Nat} {es es' : List TableEvent}

@[simp] theorem zeroedTables_nil : zeroedTables [] = ∅ := by simp [zeroedTables]

@[simp] theorem zeroedTables_append : zeroedTables (es ++ es') = zeroedTables es ∪ zeroedTables es' := by
  ext t
  simp [zeroedTables]

theorem writesTables_append : WritesTables known (es ++ es') ↔
    WritesTables known es ∧ WritesTables (known ∪ zeroedTables es) es' := by
  induction es generalizing known with
  | nil => simp [WritesTables]
  | cons e es ih =>
    cases e with
    | zeroed table =>
      have hset : insert table known ∪ zeroedTables es = known ∪ zeroedTables (.zeroed table :: es) := by
        ext t
        simp only [zeroedTables, Set.mem_union, Set.mem_insert_iff, Set.mem_ofPred_eq, List.mem_cons,
          TableEvent.zeroed.injEq]
        tauto
      simp only [List.cons_append, WritesTables, ih, hset, and_assoc]
    | written addr =>
      have hset : known ∪ zeroedTables es = known ∪ zeroedTables (.written addr :: es) := by
        simp [zeroedTables]
      simp only [List.cons_append, WritesTables, ih, hset, and_assoc]

/-- A byte that changes lies in a table. -/
theorem WritesTables.covered (h : WritesTables known es) {e : TableEvent} (he : e ∈ es) {a : Nat} (ha : e.Covers a) :
    a / 4096 * 4096 ∈ known ∪ zeroedTables es := by
  obtain ⟨pre, post, rfl⟩ := List.append_of_mem he
  have hpost := (writesTables_append.1 h).2
  cases e with
  | zeroed table =>
    rw [hpost.1 a ha]
    simp [zeroedTables]
  | written addr =>
    rcases hpost.1 a ha with hin | hin
    · exact .inl hin
    · rw [zeroedTables_append]
      exact .inr (.inl hin)

theorem writesTables_entry {f i : Nat} (hf : f % 4096 = 0) (hi : i < 512) (hin : f ∈ known) :
    WritesTables known [.written (f + 8 * i)] := by
  refine ⟨fun a ha => ?_, trivial⟩
  obtain ⟨h1, h2⟩ := ha
  rwa [show a / 4096 * 4096 = f by omega]

end

section
variable {σ : Type} {src : FrameSource σ} {T : Tables} {m : Mem} {s : σ} {p va pml4 stop : Nat} {known : Set Nat}

/-- Entering a table writes tables, and a table that is new is one of those zeroed. -/
theorem Entered.writes {f i l c : Nat} {T' : Tables} {m' : Mem} {s' : σ} (h : Entered src p T m s f i l c T' m' s')
    (hwf : T.WF m) (hs : T.Apart src s) (hf : T.level f = l + 2) (hi : i < 512)
    (hknown : ∀ g, T.level g ≠ 0 → g ∈ known) :
    WritesTables known (enterEvents src.alloc p f i m s) ∧
      ∀ g, T'.level g ≠ 0 → g ∈ known ∪ zeroedTables (enterEvents src.alloc p f i m s) := by
  have hfa := hwf.aligned f (by omega)
  have hfk := hknown f (by omega)
  unfold enterEvents
  rcases h.grown with ⟨hp, -, rfl, -⟩ | ⟨hp, rfl, -, ha, hin⟩
  · rw [if_pos hp]
    constructor
    · split_ifs
      · exact writesTables_entry hfa hi hfk
      · trivial
    · intro g hg
      exact .inl (hknown g hg)
  · have hc := src.aligned s c hs.ok hin
    have hlow := src.low s c hs.ok hin
    have hne : c ≠ frameAllocFailed := by
      unfold frameAllocFailed
      omega
    rw [if_neg (by simp [hp]), ha]
    dsimp only
    rw [if_neg hne]
    refine ⟨⟨?_, writesTables_entry hfa hi (Set.mem_insert_of_mem _ hfk)⟩, ?_⟩
    · intro a hcov
      obtain ⟨h1, h2⟩ := hcov
      unfold defaultPageSize at h2
      omega
    · intro g hg
      by_cases hgc : g = c
      · right
        rw [hgc]
        simp [zeroedTables]
      · left
        apply hknown
        intro h0
        exact hg ((Function.update_of_ne hgc ..).trans h0)

/-- So does a descent. -/
theorem descendEvents_tables (n : Nat) {T : Tables} {m : Mem} {s : σ} {f : Nat} {known : Set Nat} (hwf : T.WF m)
    (hb : T.Blank m) (hs : T.Apart src s) (hf : T.level f = stop + n + 1) (hlarge : NoLarger stop m (stop + n + 1) f va)
    (hknown : ∀ g, T.level g ≠ 0 → g ∈ known) :
    WritesTables known (descendEvents src.alloc p va stop n f m s) ∧
      ∃ r m' s' T', descendTo src.alloc p va stop n f m s = (r, m', s') ∧
        DescendsTo src p va stop n f T m s r T' m' s' ∧
          ∀ g, T'.level g ≠ 0 → g ∈ known ∪ zeroedTables (descendEvents src.alloc p va stop n f m s) := by
  induction n generalizing f m s T known with
  | zero => exact ⟨trivial, some f, m, s, T, rfl, .here f T m s, fun g hg => .inl (hknown g hg)⟩
  | succ n ih =>
    have hi := vaIndex_lt va (stop + n + 1)
    have hends := NoLarger.ends_not (l := stop + n) hlarge hb (by omega) (by omega)
    unfold descendEvents descendTo
    rcases enterTable_spec (p := p) hwf hs hf hi (fun _ => hends) with ⟨c, m₁, T₁, s₁, henter, hent⟩ | ⟨henter, hp, ha⟩
    · obtain ⟨hw, hk⟩ := hent.writes hwf hs hf hi hknown
      obtain ⟨hw', r, m', s', T', hdesc, hd, hk'⟩ := ih hent.wf (hent.blank hb) hent.apart hent.level
        (hent.noLarger hwf hf (by omega) hlarge) hk
      rw [henter]
      refine ⟨writesTables_append.2 ⟨hw, hw'⟩, r, m', s', T', hdesc, .enter hends hent hd, ?_⟩
      rw [zeroedTables_append, ← Set.union_assoc]
      exact hk'
    · have hnone : enterEvents src.alloc p f (vaIndex va (stop + n + 1)) m s = [] := by
        unfold enterEvents
        rw [if_neg (by simp [hp])]
        exact if_pos ha
      rw [henter, hnone]
      exact ⟨trivial, none, m, _, T, rfl, .failed hp ha, fun g hg => .inl (hknown g hg)⟩

/-- A call that meets no larger page writes tables. -/
theorem pageInEvents_tables (pa p : Nat) {pageSize : Nat} (hT : Built src pml4 T m s)
    (hlarge : NoLarger (leafLevel pageSize) m 4 pml4 va) (hknown : ∀ g, T.level g ≠ 0 → g ∈ known) :
    WritesTables known (pageInEvents src.alloc pml4 va pageSize p m s) ∧
      ∃ r m' s' T', pageIn src.alloc pml4 va pa pageSize p m s = (r, m', s') ∧ Built src pml4 T' m' s' ∧
        ∀ g, T'.level g ≠ 0 → g ∈ known ∪ zeroedTables (pageInEvents src.alloc pml4 va pageSize p m s) := by
  have hstop := leafLevel_le pageSize
  have hsum : leafLevel pageSize + (3 - leafLevel pageSize) + 1 = 4 := by omega
  obtain ⟨hw, r, m', s', T', hdesc, hd, hk⟩ := descendEvents_tables (p := p) (3 - leafLevel pageSize) hT.wf hT.blank
    hT.apart (hT.root.trans hsum.symm) (by rwa [hsum]) hknown
  have hbuilt := hd.built hT
  have hi := vaIndex_lt va (leafLevel pageSize)
  rw [pageInEvents_eq, pageIn_eq, hdesc]
  cases r with
  | none =>
    refine ⟨?_, -1, m', s', T', rfl, hbuilt, ?_⟩
    · simpa [leafEvents] using hw
    · simpa [leafEvents] using hk
  | some c =>
    have hlevel := hd.reached (hT.root.trans hsum.symm)
    have hleaf := writesTables_entry (hbuilt.wf.aligned c (by omega)) hi (hk c (by omega))
    refine ⟨writesTables_append.2 ⟨hw, hleaf⟩, 0, _, s', T', rfl, hbuilt.setLeaf p pa hlevel hstop hi, ?_⟩
    intro g hg
    rw [zeroedTables_append, ← Set.union_assoc]
    exact .inl (hk g hg)

end

/-! ## Runs -/

/-- A call of `page_in`. -/
structure PageCall where
  virtAddr : Nat
  physAddr : Nat
  pageSize : Nat
  permissions : Nat

section
variable {σ : Type} (alloc : σ → Nat × σ) (pml4 : Nat)

/-- Memory and allocator after the calls. -/
def runCalls : List PageCall → Mem × σ → Mem × σ
  | [], st => st
  | c :: cs, st => runCalls cs (pageIn alloc pml4 c.virtAddr c.physAddr c.pageSize c.permissions st.1 st.2).2

/-- The events of the calls. -/
def runEvents : List PageCall → Mem × σ → List TableEvent
  | [], _ => []
  | c :: cs, st =>
    pageInEvents alloc pml4 c.virtAddr c.pageSize c.permissions st.1 st.2 ++
      runEvents cs (pageIn alloc pml4 c.virtAddr c.physAddr c.pageSize c.permissions st.1 st.2).2

/-- No call is for an address that a larger page maps when it is made. -/
def Unobstructed : List PageCall → Mem × σ → Prop
  | [], _ => True
  | c :: cs, st => NoLarger (leafLevel c.pageSize) st.1 4 pml4 c.virtAddr ∧
      Unobstructed cs (pageIn alloc pml4 c.virtAddr c.physAddr c.pageSize c.permissions st.1 st.2).2

theorem runCalls_unwritten {a : Nat} : ∀ {cs : List PageCall} (st : Mem × σ),
    (∀ e ∈ runEvents alloc pml4 cs st, ¬e.Covers a) → (runCalls alloc pml4 cs st).1 a = st.1 a
  | [], _, _ => rfl
  | _ :: _, _, h =>
    (runCalls_unwritten _ fun e he => h e (List.mem_append_right _ he)).trans
      (pageIn_unwritten alloc fun e he => h e (List.mem_append_left _ he))

end

section
variable {σ : Type} {src : FrameSource σ} {pml4 : Nat}

theorem Built.runEvents_tables : ∀ {cs : List PageCall} {T : Tables} {st : Mem × σ} {known : Set Nat},
    Built src pml4 T st.1 st.2 → Unobstructed src.alloc pml4 cs st → (∀ g, T.level g ≠ 0 → g ∈ known) →
      WritesTables known (runEvents src.alloc pml4 cs st)
  | [], _, _, _, _, _, _ => trivial
  | c :: cs, T, st, known, hT, ⟨hlarge, hrest⟩, hknown => by
    obtain ⟨hw, r, m', s', T', he, hT', hk⟩ := pageInEvents_tables c.physAddr c.permissions hT hlarge hknown
    rw [he] at hrest
    unfold runEvents
    rw [he]
    exact writesTables_append.2
      ⟨hw, Built.runEvents_tables (show Built src pml4 T' (m', s').1 (m', s').2 from hT') hrest hk⟩

/-- In every run of `page_in` from a zeroed PML4 in which no call is for an address that a larger page maps, all words
written lie in the PML4 or in frames that were allocated as tables before; all other memory keeps its content. -/
theorem page_in_writes_tables (src : FrameSource σ) {m : Mem} {s : σ} (hok : src.Ok s) (haligned : pml4 % 4096 = 0)
    (hfree : pml4 ∉ src.free s) (hzero : ∀ i, i < 512 → entryAt m pml4 i = 0) (cs : List PageCall)
    (hrun : Unobstructed src.alloc pml4 cs (m, s)) :
    WritesTables {pml4} (runEvents src.alloc pml4 cs (m, s)) ∧
      ∀ a, a / 4096 * 4096 ≠ pml4 → .zeroed (a / 4096 * 4096) ∉ runEvents src.alloc pml4 cs (m, s) →
        (runCalls src.alloc pml4 cs (m, s)).1 a = m a := by
  have hw : WritesTables {pml4} (runEvents src.alloc pml4 cs (m, s)) := by
    refine (Built.zeroed hok haligned hfree hzero).runEvents_tables hrun fun g hg => ?_
    by_contra hne
    exact hg (if_neg hne)
  refine ⟨hw, fun a hroot hnew => ?_⟩
  refine runCalls_unwritten src.alloc pml4 (m, s) fun e he hcov => ?_
  rcases hw.covered he hcov with hin | hin
  · exact hroot hin
  · exact hnew hin

/-- A page of 2 MiB and one of 4 KiB elsewhere. -/
def apartCalls : List PageCall := [⟨0, 0x200000, hugePs, 2⟩, ⟨0x200000, 0x5000, defaultPageSize, 2⟩]

/-- A page of 2 MiB and one of 4 KiB inside it. -/
def nestedCalls : List PageCall := [⟨0, 0x200000, hugePs, 2⟩, ⟨0, 0x5000, defaultPageSize, 2⟩]

theorem page_in_writes_tables_apartCalls :
    WritesTables {0} (runEvents (bumpSource 0x8000 (by decide)).alloc 0 apartCalls (fun _ => 0, 1)) := by
  refine (page_in_writes_tables (bumpSource 0x8000 (by decide)) trivial (by decide) (fun h => absurd h.2.1 (by decide))
    (fun _ _ => entryAt_zero ..) apartCalls ⟨noLarger_zeroed (fun _ _ => entryAt_zero ..) _ _, ?_, trivial⟩).1
  intro w hw
  have hnone : (mmuWalk (pageIn (bumpSource 0x8000 (by decide)).alloc 0 0 0x200000 hugePs 2 (fun _ => 0) 1).2.1 4 0
      0x200000).isNone = true := by decide +kernel
  rw [Option.isNone_iff_eq_none] at hnone
  rw [show mmuWalk _ 4 0 0x200000 = none from hnone] at hw
  cases hw

/-- The second call takes the page of 2 MiB for a page table and writes an entry into it. -/
theorem page_in_writes_data : .written 0x200000 ∈
      runEvents (bumpSource 0x8000 (by decide)).alloc 0 nestedCalls (fun _ => 0, 1) ∧
    ¬WritesTables {0} (runEvents (bumpSource 0x8000 (by decide)).alloc 0 nestedCalls (fun _ => 0, 1)) := by
  have hevents : runEvents (bumpSource 0x8000 (by decide)).alloc 0 nestedCalls (fun _ => 0, 1) =
      [.zeroed 0x1000, .written 0, .zeroed 0x2000, .written 0x1000, .written 0x2000, .written 0, .written 0x1000,
        .written 0x2000, .written 0x200000] := by decide +kernel
  rw [hevents]
  refine ⟨by simp, fun hw => ?_⟩
  have hin := hw.covered (e := .written 0x200000) (by simp) (a := 0x200000) ⟨le_rfl, by decide⟩
  simp [zeroedTables] at hin

end

end Icarus.Memory

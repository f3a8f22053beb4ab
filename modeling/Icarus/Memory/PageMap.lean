/-
`page_in` for 4 KiB pages implements a page map: the walk of the MMU finds what the last successful call
for a page asked for, the frame as well as the rights, and a failed call changes no page.
-/
import Icarus.Memory.Descent

namespace Icarus.Memory

open Icarus.Base

/-! ## The page map -/

/-- A call of `page_in` for a 4 KiB page. -/
structure MapCall where
  virtAddr : Nat
  physAddr : Nat
  permissions : Nat
deriving DecidableEq

/-- Which call mapped a page last, by page number: bits 47:12 of the address. -/
abbrev PageMap : Type := Nat → Option MapCall

/-- The number of the page of an address. -/
def pageOf (va : Nat) : Nat := vaPrefix va 0

/-- Memory and allocator, with the page map the calls so far amount to. -/
structure MapState (σ : Type) where
  mem : Mem
  frames : σ
  map : PageMap

section
variable {σ : Type} (alloc : σ → Nat × σ) (pml4 : Nat)

/-- One call: the page map changes when `page_in` returns 0. -/
def MapState.call (st : MapState σ) (c : MapCall) : MapState σ :=
  let (r, mem, frames) := pageIn alloc pml4 c.virtAddr c.physAddr defaultPageSize c.permissions st.mem st.frames
  ⟨mem, frames, if r = 0 then Function.update st.map (pageOf c.virtAddr) (some c) else st.map⟩

/-- One call after the other. -/
def MapState.calls (st : MapState σ) (cs : List MapCall) : MapState σ := cs.foldl (MapState.call alloc pml4) st

end

/-! ## The entry of a page -/

/-- The entry says what the call asked for. -/
structure Entry.MapsAs (e : Entry) (c : MapCall) : Prop where
  present : e.present = true
  reserved : e.reserved = 0
  pagePpn : e.pagePpn = c.physAddr / 4096 % 2 ^ 28
  user : e.userAccess = permBit c.permissions userAccessShift
  write : e.writeable = permBit c.permissions writeableShift
  writeThrough : e.writeThrough = permBit c.permissions writeThroughShift
  cacheDisabled : e.cacheDisabled = permBit c.permissions cacheDisabledShift
  executionDisabled : e.executionDisabled = permBit c.permissions executionDisabledShift

theorem defaultLeaf_mapsAs {e : Entry} (he : e.reserved = 0) (c : MapCall) :
    (defaultLeaf c.permissions c.physAddr e).MapsAs c := by
  refine ⟨defaultLeaf_present, defaultLeaf_reserved he, ?_, ?_, ?_, ?_, ?_, ?_⟩
  · simp (disch := omega) only [Entry.pagePpn, defaultLeaf, Entry.setPresent, extractLsb'_setBit,
      Entry.extractLsb'_setPagePpn, BitVec.toNat_ofNat, Nat.shiftRight_eq_div_pow]
  all_goals
    simp (disch := omega) only [defaultLeaf, applyLeafPerms, Entry.setPresent, Entry.setDirty, Entry.setAccessed,
      Entry.setExecutionDisabled, Entry.setCacheDisabled, Entry.setWriteThrough, Entry.setWriteable,
      Entry.setUserAccess, Entry.userAccess, Entry.writeable, Entry.writeThrough, Entry.cacheDisabled,
      Entry.executionDisabled, getLsbD_setBit_of_ne, getLsbD_setBit, Entry.getLsbD_setPagePpn_of_not, reduceIte]

/-! ## One call -/

/-- The tables of `T` grew from the zeroed root `pml4`. -/
structure Grown {σ : Type} (src : FrameSource σ) (pml4 : Nat) (T : Tables) (m : Mem) (s : σ) : Prop where
  wf : T.WF m
  placed : T.Placed m
  small : T.Small m
  apart : T.Apart src s
  root : T.level pml4 = 4
  rootPre : T.pre pml4 = 0

/-- The walk ends in the page table with what the call asked for. -/
structure Walk.MapsAs (w : Walk) (c : MapCall) : Prop where
  level : w.level = 0
  leaf : w.leaf.MapsAs c
  upper : ∀ e ∈ w.upper, e.Allows c.permissions ∧ e.executionDisabled = false

theorem Entry.Widens.exists_of_mem {as bs : List Entry} (h : List.Forall₂ Entry.Widens as bs) {e' : Entry}
    (he' : e' ∈ bs) : ∃ e ∈ as, e.Widens e' := by
  induction h with
  | nil => cases he'
  | cons hw _ ih =>
    rcases List.mem_cons.1 he' with rfl | he'
    · exact ⟨_, List.mem_cons_self, hw⟩
    · obtain ⟨e, he, hw'⟩ := ih he'
      exact ⟨e, List.mem_cons_of_mem _ he, hw'⟩

theorem Walk.Widens.mapsAs {a : Walk} {b : Option Walk} (h : Walk.Widens (some a) b) {c : MapCall} (ha : a.MapsAs c) :
    ∃ w, b = some w ∧ w.MapsAs c := by
  cases h with
  | found h1 h2 h3 =>
    refine ⟨_, rfl, h2.trans ha.level, by rw [h1]; exact ha.leaf, fun e' he' => ?_⟩
    obtain ⟨e, he, hw⟩ := Entry.Widens.exists_of_mem h3 he'
    obtain ⟨hallow, hnx⟩ := ha.upper e he
    exact ⟨⟨fun hu => hw.user (hallow.user hu), fun hu => hw.write (hallow.write hu)⟩, hw.executionDisabled.trans hnx⟩

section
variable {w : Walk} {c : MapCall}

theorem Walk.MapsAs.userAccess (h : w.MapsAs c) : w.userAccess = permBit c.permissions userAccessShift := by
  unfold Walk.userAccess
  rw [h.leaf.user]
  cases hp : permBit c.permissions userAccessShift with
  | false => exact Bool.and_false _
  | true => rw [List.all_eq_true.2 fun e he => (h.upper e he).1.user hp, Bool.and_true]

theorem Walk.MapsAs.writeable (h : w.MapsAs c) : w.writeable = permBit c.permissions writeableShift := by
  unfold Walk.writeable
  rw [h.leaf.write]
  cases hp : permBit c.permissions writeableShift with
  | false => exact Bool.and_false _
  | true => rw [List.all_eq_true.2 fun e he => (h.upper e he).1.write hp, Bool.and_true]

theorem Walk.MapsAs.executionDisabled (h : w.MapsAs c) :
    w.executionDisabled = permBit c.permissions executionDisabledShift := by
  unfold Walk.executionDisabled
  rw [h.leaf.executionDisabled, List.any_eq_false.2 fun e he => by simp [(h.upper e he).2], Bool.false_or]

end

/-- Addresses of one page are walked alike. -/
theorem mmuWalk_of_page {m : Mem} {va va' : Nat} (h : pageOf va' = pageOf va) {l : Nat} (hl : l ≤ 4) (f : Nat) :
    mmuWalk m l f va' = mmuWalk m l f va := by
  induction l generalizing f with
  | zero => rfl
  | succ l ih =>
    unfold mmuWalk
    simp only [vaIndex_congr h (Nat.zero_le l) (show l ≤ 3 by omega), ih (by omega)]

section
variable {T : Tables} {m : Mem}

/-- Writing the entry of a page changes the walk of no other page. -/
theorem mmuWalk_setLeaf (hwf : T.WF m) (hpl : T.Placed m) {c va va' : Nat} {e : Entry} (hc : T.level c = 1)
    (hpre : T.pre c = vaPrefix va 1) (hne : pageOf va' ≠ pageOf va) {k g : Nat} (hk : k ≤ 4) (hg : T.level g = k)
    (hgpre : T.pre g = vaPrefix va' k) :
    mmuWalk (setEntry m c (vaIndex va 0) e) k g va' = mmuWalk m k g va' := by
  induction k generalizing g with
  | zero => rfl
  | succ k ih =>
    have hj := vaIndex_lt va' k
    refine mmuWalk_step ?_ fun hp he => ?_
    · rw [entryAt_setEntry (hwf.aligned c (by omega)) (hwf.aligned g (by omega)) (vaIndex_lt va 0) hj, if_neg]
      rintro ⟨rfl, hidx⟩
      obtain rfl : k = 0 := by omega
      apply hne
      unfold pageOf
      rw [vaPrefix_succ va' (by decide), vaPrefix_succ va (by decide), hidx, ← hgpre, ← hpre]
    · obtain ⟨hlevel, hpre'⟩ := hwf.child_frame hg hj hp he
      exact ih (by omega) hlevel (by rw [hpre' hpl, hgpre, ← vaPrefix_succ va' (by omega)])

theorem Path.executionDisabled {va l f c : Nat} {es : List Entry} (h : Path m va l f es c) (hwf : T.WF m)
    (hsm : T.Small m) (hf : T.level f = l + 1) : ∀ e ∈ es, e.executionDisabled = false := by
  induction h with
  | here f => simp
  | down he hp hend _ ih =>
    subst he
    intro e he
    rcases List.mem_cons.1 he with rfl | he
    · exact (hsm _ _ (by omega) (vaIndex_lt ..)).2
    · exact ih (hwf.child_frame hf (vaIndex_lt ..) hp hend).1 e he

theorem Tables.Small.noLarge (hsm : T.Small m) (hwf : T.WF m) {l f va : Nat} (hf : T.level f = l) :
    NoLarge m l f va := by
  induction l generalizing f with
  | zero =>
    intro w hw
    cases hw
  | succ l ih =>
    intro w hw
    have hi := vaIndex_lt va l
    obtain ⟨hp, ⟨he, rfl⟩ | ⟨he, w', hw', rfl⟩⟩ := mmuWalk_cases hw
    · rcases l with _ | l
      · rfl
      · exact absurd he (hsm.not_ends hf hi)
    · exact ih (hwf.child_frame hf hi hp he).1 w' hw'

end

section
variable {σ : Type} {src : FrameSource σ} {pml4 : Nat} {T : Tables} {m : Mem} {s : σ}

/-- The entry of the page is written. -/
theorem Grown.setLeaf (h : Grown src pml4 T m s) {c i : Nat} {e : Entry} (hc : T.level c = 1) (hi : i < 512)
    (he : e.reserved = 0) : Grown src pml4 T (setEntry m c i e) s :=
  ⟨h.wf.setLeaf hc hi he, h.placed.setLeaf h.wf hc hi, fun g j hg hj => by
    rw [setLeaf_of_ne h.wf hc hi hg hj]
    exact h.small g j hg hj, h.apart, h.root, h.rootPre⟩

/-- A call fails and changes no walk but for rights of upper entries, or maps its page and changes no other
walk but for these. -/
theorem PagedIn.walks {c : MapCall} {r : Int} {T' : Tables} {m' : Mem} {s' : σ}
    (h : PagedIn src pml4 c.virtAddr c.physAddr c.permissions T m s r T' m' s') (hT : Grown src pml4 T m s) :
    Grown src pml4 T' m' s' ∧
      (r = -1 ∧ (∀ va, Walk.Widens (mmuWalk m 4 pml4 va) (mmuWalk m' 4 pml4 va)) ∨
        r = 0 ∧ (∀ va, pageOf va ≠ pageOf c.virtAddr → Walk.Widens (mmuWalk m 4 pml4 va) (mmuWalk m' 4 pml4 va)) ∧
          ∀ va, pageOf va = pageOf c.virtAddr → ∃ w, mmuWalk m' 4 pml4 va = some w ∧ w.MapsAs c) := by
  have hdesc : ∀ {o : Option Nat} {m₁ : Mem}, Descends src c.permissions c.virtAddr 3 pml4 T m s o T' m₁ s' →
      Grown src pml4 T' m₁ s' ∧ ∀ va, Walk.Widens (mmuWalk m 4 pml4 va) (mmuWalk m₁ 4 pml4 va) := by
    intro o m₁ hd
    obtain ⟨hroot, hpre⟩ := hd.le pml4 (by rw [hT.root]; decide)
    exact ⟨⟨hd.wf hT.wf, hd.placed hT.placed, hd.small hT.root hT.small, hd.apart hT.apart, hroot.trans hT.root,
      hpre.trans hT.rootPre⟩, fun va => hd.walks hT.wf hT.root hT.small hT.root⟩
  cases h with
  | failed hd => exact ⟨(hdesc hd).1, .inl ⟨rfl, (hdesc hd).2⟩⟩
  | @mapped t T' m₁ s' hd =>
    obtain ⟨hgrown, hwalks⟩ := hdesc hd
    have hlevel := hd.reached hT.root
    obtain ⟨es, hes, hallow⟩ := hd.path hT.root hT.small
    have hi := vaIndex_lt c.virtAddr 0
    have hmaps := defaultLeaf_mapsAs (hgrown.wf.reserved t _ (by omega) hi) c
    have hgrown' := hgrown.setLeaf hlevel hi hmaps.reserved
    refine ⟨hgrown', .inr ⟨rfl, fun va hne => ?_, fun va hva => ?_⟩⟩
    · rw [mmuWalk_setLeaf hgrown.wf hgrown.placed hlevel
        (hd.reached_pre hT.placed le_rfl (by rw [hT.rootPre, vaPrefix_four])) hne le_rfl hgrown.root
        (by rw [hgrown.rootPre, vaPrefix_four])]
      exact hwalks va
    · have hself : entryAt (setEntry m₁ t (vaIndex c.virtAddr 0) (defaultLeaf c.permissions c.physAddr
          (entryAt m₁ t (vaIndex c.virtAddr 0)))) t (vaIndex c.virtAddr 0) =
          defaultLeaf c.permissions c.physAddr (entryAt m₁ t (vaIndex c.virtAddr 0)) := Mem.load64_store64_same ..
      have hes' : Path (setEntry m₁ t (vaIndex c.virtAddr 0) (defaultLeaf c.permissions c.physAddr
          (entryAt m₁ t (vaIndex c.virtAddr 0)))) c.virtAddr 3 pml4 es t :=
        hes.congr hgrown.wf (fun g j hg hj => setLeaf_of_ne hgrown.wf hlevel hi hg hj) hgrown.root
      rw [mmuWalk_of_page hva le_rfl, hes'.walk (by rw [hself]; exact hmaps.present), hself]
      exact ⟨_, rfl, rfl, hmaps, fun e he =>
        ⟨hallow e he, hes'.executionDisabled hgrown'.wf hgrown'.small hgrown'.root e he⟩⟩

end

/-! ## Runs of calls -/

/-- The walks of the MMU are what the page map says. -/
structure MapState.Inv {σ : Type} (src : FrameSource σ) (pml4 : Nat) (st : MapState σ) : Prop where
  tables : ∃ T, Grown src pml4 T st.mem st.frames
  unmapped : ∀ va, st.map (pageOf va) = none → mmuWalk st.mem 4 pml4 va = none
  mapped : ∀ va c, st.map (pageOf va) = some c → ∃ w, mmuWalk st.mem 4 pml4 va = some w ∧ w.MapsAs c

section
variable {σ : Type} {src : FrameSource σ} {pml4 : Nat} {st : MapState σ}

/-- Nothing is mapped under a zeroed root. -/
theorem MapState.Inv.zeroed {m : Mem} {s : σ} (hok : src.Ok s) (haligned : pml4 % 4096 = 0) (hfree : pml4 ∉ src.free s)
    (hzero : ∀ i, i < 512 → entryAt m pml4 i = 0) : MapState.Inv src pml4 ⟨m, s, fun _ => none⟩ := by
  refine ⟨⟨.only pml4, Tables.only_wf haligned hzero, Tables.only_placed hzero, fun f i hf hi => ?_,
    Tables.only_apart hok hfree, if_pos rfl, rfl⟩, fun va _ => mmuWalk_zeroed hzero va, fun va c hc => ?_⟩
  · rw [entryAt_only hzero (by omega) hi]
    exact ⟨rfl, rfl⟩
  · cases hc

/-- What the page map says of an address stays true under wider upper entries. -/
theorem MapState.Inv.widen (h : st.Inv src pml4) {va : Nat} {b : Option Walk}
    (hw : Walk.Widens (mmuWalk st.mem 4 pml4 va) b) :
    (st.map (pageOf va) = none → b = none) ∧
      ∀ c, st.map (pageOf va) = some c → ∃ w, b = some w ∧ w.MapsAs c := by
  refine ⟨fun hva => ?_, fun c hva => ?_⟩
  · rw [h.unmapped va hva] at hw
    exact hw.eq_none
  · obtain ⟨w, hwalk, hmaps⟩ := h.mapped va c hva
    rw [hwalk] at hw
    exact hw.mapsAs hmaps

theorem MapState.call_eq {c : MapCall} {r : Int} {m' : Mem} {s' : σ}
    (h : pageIn src.alloc pml4 c.virtAddr c.physAddr defaultPageSize c.permissions st.mem st.frames = (r, m', s')) :
    st.call src.alloc pml4 c =
      ⟨m', s', if r = 0 then Function.update st.map (pageOf c.virtAddr) (some c) else st.map⟩ := by
  unfold MapState.call
  rw [h]

theorem MapState.Inv.call (h : st.Inv src pml4) (c : MapCall) : (st.call src.alloc pml4 c).Inv src pml4 := by
  obtain ⟨T, hT⟩ := h.tables
  have hlarge : NoLarge st.mem 4 pml4 c.virtAddr := hT.small.noLarge hT.wf hT.root
  obtain ⟨r, m', s', T', hpage, hp⟩ :=
    @pageIn_spec σ src T st.mem st.frames pml4 c.virtAddr c.physAddr c.permissions hT.wf hT.apart hT.root hlarge
  obtain ⟨hT', ⟨rfl, hwalks⟩ | ⟨rfl, hother, hself⟩⟩ := hp.walks hT
  · rw [MapState.call_eq hpage]
    exact ⟨⟨T', hT'⟩, fun va => (h.widen (hwalks va)).1, fun va => (h.widen (hwalks va)).2⟩
  · rw [MapState.call_eq hpage, if_pos rfl]
    refine ⟨⟨T', hT'⟩, fun va hva => ?_, fun va d hva => ?_⟩
    all_goals
      dsimp only at hva
      by_cases hpg : pageOf va = pageOf c.virtAddr
    · rw [hpg, Function.update_self] at hva
      cases hva
    · rw [Function.update_of_ne hpg] at hva
      exact (h.widen (hother va hpg)).1 hva
    · rw [hpg, Function.update_self] at hva
      cases hva
      exact hself va hpg
    · rw [Function.update_of_ne hpg] at hva
      exact (h.widen (hother va hpg)).2 d hva

theorem MapState.Inv.calls (h : st.Inv src pml4) (cs : List MapCall) : (st.calls src.alloc pml4 cs).Inv src pml4 := by
  induction cs generalizing st with
  | nil => exact h
  | cons c cs ih => exact ih (h.call c)

/-- The page map holds calls that were made. -/
theorem MapState.calls_map {P : MapCall → Prop} (cs : List MapCall) (hcs : ∀ c ∈ cs, P c)
    (hst : ∀ n c, st.map n = some c → P c) {n : Nat} {c : MapCall}
    (h : (st.calls src.alloc pml4 cs).map n = some c) : P c := by
  induction cs generalizing st with
  | nil => exact hst n c h
  | cons d cs ih =>
    refine ih (fun c hc => hcs c (List.mem_cons_of_mem d hc)) (fun n c hn => ?_) h
    unfold MapState.call at hn
    dsimp only at hn
    split_ifs at hn
    · by_cases hpg : n = pageOf d.virtAddr
      · rw [hpg, Function.update_self] at hn
        cases hn
        exact hcs d List.mem_cons_self
      · rw [Function.update_of_ne hpg] at hn
        exact hst n c hn
    · exact hst n c hn

/-- The translation of an address is the frame its page was mapped to. -/
theorem MapState.Inv.translate_eq (h : st.Inv src pml4) (hphys : ∀ n c, st.map n = some c → c.physAddr < 2 ^ 40)
    (va : Nat) : translate st.mem pml4 va = (st.map (pageOf va)).map fun c => c.physAddr / 4096 * 4096 := by
  unfold translate
  cases hva : st.map (pageOf va) with
  | none =>
    rw [h.unmapped va hva]
    rfl
  | some c =>
    obtain ⟨w, hw, hmaps⟩ := h.mapped va c hva
    have hlt := hphys _ c hva
    rw [hw]
    refine congrArg some ?_
    show w.leaf.frame / 2 ^ (12 + 9 * w.level) * 2 ^ (12 + 9 * w.level) + va % 2 ^ (12 + 9 * w.level) / 4096 * 4096 =
      c.physAddr / 4096 * 4096
    rw [hmaps.level, Entry.frame_eq hmaps.leaf.reserved, hmaps.leaf.pagePpn]
    omega

/-- What a failed call leaves. -/
theorem MapState.Inv.failed (h : st.Inv src pml4) {c : MapCall} {r : Int} {m' : Mem} {s' : σ}
    (hcall : pageIn src.alloc pml4 c.virtAddr c.physAddr defaultPageSize c.permissions st.mem st.frames = (r, m', s'))
    (hr : r = -1) : MapState.Inv src pml4 ⟨m', s', st.map⟩ := by
  have hinv := h.call c
  rw [MapState.call_eq hcall, if_neg (by omega)] at hinv
  exact hinv

/-- A call maps its page, or fails with the last frame that it asked for refused. -/
theorem MapState.Inv.returns (h : st.Inv src pml4) {c : MapCall} {r : Int} {m' : Mem} {s' : σ}
    (hcall : pageIn src.alloc pml4 c.virtAddr c.physAddr defaultPageSize c.permissions st.mem st.frames = (r, m', s')) :
    r = 0 ∨ r = -1 ∧ ∃ n < 3, (src.alloc (src.after n st.frames)).1 = frameAllocFailed ∧
      s' = src.after (n + 1) st.frames := by
  obtain ⟨T, hT⟩ := h.tables
  obtain ⟨r₁, m₁, s₁, T', hpage, hp⟩ := @pageIn_spec σ src T st.mem st.frames pml4 c.virtAddr c.physAddr c.permissions
    hT.wf hT.apart hT.root (hT.small.noLarge hT.wf hT.root)
  rw [hcall] at hpage
  obtain ⟨rfl, rfl, rfl⟩ : r = r₁ ∧ m' = m₁ ∧ s' = s₁ := by simpa using hpage
  cases hp with
  | failed hd => exact .inr ⟨rfl, hd.refused⟩
  | mapped _ => exact .inl rfl

/-- From a zeroed PML4, the walk of the MMU translates every page to the frame of the last successful call
for it, and no other page; a call that returns -1 changes no translation. A call returns 0, or the allocator has refused
one of the at most three frames that it asked for. -/
theorem page_in_implements_page_map (src : FrameSource σ) {m : Mem} {s : σ} (hok : src.Ok s)
    (haligned : pml4 % 4096 = 0) (hfree : pml4 ∉ src.free s) (hzero : ∀ i, i < 512 → entryAt m pml4 i = 0)
    (cs : List MapCall) (hphys : ∀ c ∈ cs, c.physAddr < 2 ^ 40) :
    let st := MapState.calls src.alloc pml4 ⟨m, s, fun _ => none⟩ cs
    (∀ va, translate st.mem pml4 va = (st.map (pageOf va)).map fun c => c.physAddr / 4096 * 4096) ∧
      (∀ (c : MapCall) (m' : Mem) (s' : σ),
        pageIn src.alloc pml4 c.virtAddr c.physAddr defaultPageSize c.permissions st.mem st.frames = (-1, m', s') →
          ∀ va, translate m' pml4 va = translate st.mem pml4 va) ∧
      ∀ (c : MapCall) (r : Int) (m' : Mem) (s' : σ),
        pageIn src.alloc pml4 c.virtAddr c.physAddr defaultPageSize c.permissions st.mem st.frames = (r, m', s') →
          r = 0 ∨ r = -1 ∧ ∃ n < 3, (src.alloc (src.after n st.frames)).1 = frameAllocFailed ∧
            s' = src.after (n + 1) st.frames := by
  intro st
  have hinv : st.Inv src pml4 := (MapState.Inv.zeroed hok haligned hfree hzero).calls cs
  have hlow : ∀ n c, st.map n = some c → c.physAddr < 2 ^ 40 := fun n c =>
    MapState.calls_map (P := fun c => c.physAddr < 2 ^ 40) cs hphys (fun _ _ h => by cases h)
  refine ⟨hinv.translate_eq hlow, fun c m' s' hcall va => ?_, fun c r m' s' hcall => hinv.returns hcall⟩
  rw [hinv.translate_eq hlow va]
  exact (hinv.failed hcall rfl).translate_eq hlow va

/-- Three frames serve the first call; the second needs a page directory of its own and fails. -/
def twoCalls : List MapCall := [⟨0x400000, 0x5000, 2⟩, ⟨0x8040000000, 0x6000, 10⟩]

theorem page_in_implements_page_map_twoCalls :
    let st := MapState.calls (bumpSource 0x4000 (by decide)).alloc 0 ⟨fun _ => 0, 1, fun _ => none⟩ twoCalls
    (∀ va, translate st.mem 0 va = (st.map (pageOf va)).map fun c => c.physAddr / 4096 * 4096) ∧
      (∀ (c : MapCall) (m' : Mem) (s' : Nat),
        pageIn (bumpSource 0x4000 (by decide)).alloc 0 c.virtAddr c.physAddr defaultPageSize c.permissions st.mem
          st.frames = (-1, m', s') → ∀ va, translate m' 0 va = translate st.mem 0 va) ∧
      ∀ (c : MapCall) (r : Int) (m' : Mem) (s' : Nat),
        pageIn (bumpSource 0x4000 (by decide)).alloc 0 c.virtAddr c.physAddr defaultPageSize c.permissions st.mem
          st.frames = (r, m', s') → r = 0 ∨ r = -1 ∧ ∃ n < 3,
            ((bumpSource 0x4000 (by decide)).alloc ((bumpSource 0x4000 (by decide)).after n st.frames)).1 =
              frameAllocFailed ∧ s' = (bumpSource 0x4000 (by decide)).after (n + 1) st.frames :=
  page_in_implements_page_map (bumpSource 0x4000 (by decide)) trivial (by decide) (fun h => absurd h.2.1 (by decide))
    (fun _ _ => entryAt_zero ..) twoCalls (by decide)

/-- The rights of every mapped page are those the last successful call for it asked for. -/
theorem page_in_rights_exact (src : FrameSource σ) {m : Mem} {s : σ} (hok : src.Ok s)
    (haligned : pml4 % 4096 = 0) (hfree : pml4 ∉ src.free s) (hzero : ∀ i, i < 512 → entryAt m pml4 i = 0)
    (cs : List MapCall) (va : Nat) (c : MapCall)
    (hva : (MapState.calls src.alloc pml4 ⟨m, s, fun _ => none⟩ cs).map (pageOf va) = some c) :
    ∃ w, mmuWalk (MapState.calls src.alloc pml4 ⟨m, s, fun _ => none⟩ cs).mem 4 pml4 va = some w ∧
      w.userAccess = permBit c.permissions userAccessShift ∧
      w.writeable = permBit c.permissions writeableShift ∧
      w.executionDisabled = permBit c.permissions executionDisabledShift ∧
      w.writeThrough = permBit c.permissions writeThroughShift ∧
      w.cacheDisabled = permBit c.permissions cacheDisabledShift := by
  have hstart : MapState.Inv src pml4 ⟨m, s, fun _ => none⟩ := MapState.Inv.zeroed hok haligned hfree hzero
  have hinv := hstart.calls cs
  obtain ⟨w, hw, hmaps⟩ := hinv.mapped va c hva
  exact ⟨w, hw, hmaps.userAccess, hmaps.writeable, hmaps.executionDisabled, hmaps.leaf.writeThrough,
    hmaps.leaf.cacheDisabled⟩

theorem page_in_rights_exact_twoCalls :
    ∃ w, mmuWalk (MapState.calls (bumpSource 0x4000 (by decide)).alloc 0 ⟨fun _ => 0, 1, fun _ => none⟩ twoCalls).mem
        4 0 0x400123 = some w ∧
      w.userAccess = permBit 2 userAccessShift ∧ w.writeable = permBit 2 writeableShift ∧
      w.executionDisabled = permBit 2 executionDisabledShift ∧ w.writeThrough = permBit 2 writeThroughShift ∧
      w.cacheDisabled = permBit 2 cacheDisabledShift :=
  page_in_rights_exact (bumpSource 0x4000 (by decide)) trivial (by decide) (fun h => absurd h.2.1 (by decide))
    (fun _ _ => entryAt_zero ..) twoCalls 0x400123 ⟨0x400000, 0x5000, 2⟩ (by decide +kernel)

end

end Icarus.Memory

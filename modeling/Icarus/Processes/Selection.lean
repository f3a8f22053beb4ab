/-
Whether the pick follows the priorities. The loop lowers a priority before it compares the next one with it, so a
thread only one more urgent than the best so far is passed over: the least priority is found exactly when the steps of
one that lead down to it are even in number.
-/
import Icarus.Base.Minima
import Icarus.Processes.Starvation

namespace Icarus.Processes

open Icarus.Base Icarus.Interrupts

/-! ## What the loop finds -/

/-- The ready threads of the queue, in its order. -/
def Sched.ready (s : Sched) (q : List TcbPtr) : List TcbPtr := q.filter fun p => s.Ready p

/-- The ready threads of the queue that the loop can pick. -/
def Sched.pickable (s : Sched) (q : List TcbPtr) : List TcbPtr := (s.ready q).filter (s.active · < uint16Max)

/-- The priorities of these threads. -/
def Sched.pickPriorities (s : Sched) (q : List TcbPtr) : List Nat := (s.pickable q).map s.active

/-- `scheduler_pick_next_thread` returns the first of the ready threads with the least priority. -/
def PicksLeast (fuel : Nat) (src : InterruptSrc) (s : Sched) (q : List TcbPtr) : Prop :=
  ∃ y s', schedulerPickNextThread fuel src s = .ok (y, s') ∧ FirstLeast s.active (s.ready q) y

section
variable {s : Sched} {q : List TcbPtr} {x : TcbPtr}

theorem Sched.mem_ready : x ∈ s.ready q ↔ x ∈ q ∧ s.Ready x := by simp [Sched.ready]

theorem Sched.mem_pickable : x ∈ s.pickable q ↔ x ∈ q ∧ s.Ready x ∧ s.active x < uint16Max := by
  simp only [Sched.pickable, List.mem_filter, Sched.mem_ready, decide_eq_true_eq, and_assoc]

theorem pickStep_eq (s : Sched) (r : Option TcbPtr × Nat) (x : TcbPtr) :
    pickStep s r x = if s.Ready x then lowerScan s.active r x else r := by
  unfold pickStep lowerScan
  rw [saturatingDec16_eq]
  by_cases hr : s.Ready x
  · rw [if_pos hr]
    exact if_congr (and_iff_right hr) rfl rfl
  · rw [if_neg hr, if_neg fun h => hr h.1]

/-- The loop scans the ready threads that can be picked. -/
theorem foldl_pickStep (s : Sched) (q : List TcbPtr) (best : Option TcbPtr) :
    q.foldl (pickStep s) (best, uint16Max) = (s.pickable q).foldl (lowerScan s.active) (best, uint16Max) := by
  have h : pickStep s = fun r x => if decide (s.Ready x) then lowerScan s.active r x else r := by
    funext r x
    simp only [pickStep_eq, decide_eq_true_eq]
  rw [Sched.pickable, foldl_lowerScan_filter _ (le_refl uint16Max), Sched.ready, List.foldl_filter, h]

/-- What the loop leaves when there is a thread to find. -/
theorem pickLoop_scanned {fuel : Nat} (hq : s.Queue q) (hf : q.length ≤ fuel) (hx : x ∈ q) (hr : s.Ready x)
    (hlt : s.active x < uint16Max) :
    ∃ xs b ys max, q = xs ++ b :: ys ∧ max ≠ uint16Max ∧
      pickLoop fuel s.topTcb s s.topTcb uint16Max = .ok (s.pass q, some b, max) ∧
      (FirstLeast s.active (s.ready q) b ↔ Even (stairs (runningMinima (s.pickPriorities q)))) := by
  have hloop := pickLoop_foldl (s.topTcb, uint16Max) hq.seg hq.nodup hf
  have hres := passResult_foldl s q (s.topTcb, uint16Max)
  rw [← hq.head_eq] at hloop
  -- the same fold as a scan of the threads that can be picked
  have hpick : s.pickable q ≠ [] := List.ne_nil_of_mem (Sched.mem_pickable.2 ⟨hx, hr, hlt⟩)
  obtain ⟨y, hy, hscan⟩ := scanned_foldl s.topTcb hpick fun z hz => (Sched.mem_pickable.1 hz).2.2
  rw [← foldl_pickStep] at hscan
  generalize q.foldl (pickStep s) (s.topTcb, uint16Max) = r at hloop hres hscan
  obtain ⟨best, max⟩ := r
  have hready : FirstLeast s.active (s.ready q) y := (firstLeast_filter (Sched.mem_ready.2 ⟨hx, hr⟩) hlt).1 hy
  cases hres with
  | none h =>
    have := h x hx hr
    omega
  | found xs b ys he hrb hltb _ _ =>
    refine ⟨xs, b, ys, saturatingDec16 (s.active b), he, ?_, hloop, ?_⟩
    · have hltb' : s.active b < uint16Max := hltb
      rw [saturatingDec16_eq]
      omega
    · constructor
      · intro hb
        by_contra hodd
        obtain ⟨b', hb', hkey⟩ := hscan.odd hodd
        obtain rfl : b = b' := by
          rw [Prod.mk.injEq, Option.some.injEq] at hb'
          exact hb'.1
        have := hb.key_eq hready
        omega
      · intro heven
        have hb' := hscan.even heven
        rw [Prod.mk.injEq, Option.some.injEq] at hb'
        rw [hb'.1]
        exact hready

end

/-! ## Selection by priority -/

/-- The pick returns the first of the ready threads with the least priority exactly when there is a second entry in the
queue and the steps of one that lead down to the least priority are even in number. -/
theorem picksLeast_iff {s : Sched} {q : List TcbPtr} {fuel : Nat} (src : InterruptSrc) (hq : s.Queue q)
    (hf : q.length ≤ fuel) (hready : ∃ x ∈ q, s.Ready x ∧ s.active x < uint16Max) :
    PicksLeast fuel src s q ↔ 2 ≤ q.length ∧ Even (stairs (runningMinima (s.pickPriorities q))) := by
  obtain ⟨x, hx, hr, hlt⟩ := hready
  obtain ⟨xs, b, ys, max, rfl, hmax, hloop, hiff⟩ := pickLoop_scanned hq hf hx hr hlt
  by_cases hne : xs ++ ys = []
  · -- alone in the queue: its missing successor becomes the top
    obtain ⟨rfl, rfl⟩ := List.append_eq_nil_iff.1 hne
    obtain ⟨s₁, he, hq₁, -⟩ := pick_eq_unlinkBest src hq hloop hmax
    rw [unlinkBest_alone hq₁] at he
    constructor
    · rintro ⟨y, s', he', -⟩
      rw [he] at he'
      cases he'
    · rintro ⟨hlen, -⟩
      simp at hlen
  · have hlen : 2 ≤ (xs ++ b :: ys).length := by
      have := List.length_pos_of_ne_nil hne
      rw [List.length_append] at this
      rw [List.length_append, List.length_cons]
      omega
    obtain ⟨s', he, -⟩ := pick_found src hq hne hloop hmax
    constructor
    · rintro ⟨y, s'', he', hy⟩
      rw [he, Except.ok.injEq, Prod.mk.injEq] at he'
      rw [← he'.1] at hy
      exact ⟨hlen, hiff.1 hy⟩
    · rintro ⟨-, heven⟩
      exact ⟨b, s', he, hiff.2 heven⟩

/-- The queue after `scheduler_init` of a thread of priority `a` and the addition of one of priority `b`. -/
def pairOf (a b : Nat) : SchedRun where
  added := [secondTcb, firstTcb]
  ticks := 0
  sched :=
    let s := (schedulerInit firstTcb (idle.modify firstTcb fun _ => readyTcb a)).modify secondTcb fun _ => readyTcb b
    { ((s.setNext .dummy (some secondTcb)).setPrev secondTcb (some .dummy)).setNext secondTcb none with
      lastTcb := some secondTcb
      threadCount := 2 }

theorem pairOf_reach {a b : Nat} (ha : a ≤ 65534) (hb : b ≤ 65534) : SchedReach (pairOf a b) := by
  have h : SchedReach ⟨[firstTcb], 0, schedulerInit firstTcb (idle.modify firstTcb fun _ => readyTcb a)⟩ :=
    .init rfl (by decide) ⟨ha, rfl⟩
  exact .step h (.add secondTcb (readyTcb b) (by decide) (show secondTcb ∉ [firstTcb] by decide) rfl ⟨hb, rfl⟩ rfl)

theorem pairOf_queue (a b : Nat) : (pairOf a b).sched.Queue [firstTcb, .dummy, secondTcb] :=
  ⟨⟨rfl, rfl, rfl, rfl, rfl, rfl, trivial⟩, rfl, rfl, by decide⟩

theorem picksLeast_iff_pair : PicksLeast 3 .tmr (pairOf 7 4).sched [firstTcb, .dummy, secondTcb] ↔
    2 ≤ 3 ∧ Even (stairs (runningMinima ((pairOf 7 4).sched.pickPriorities [firstTcb, .dummy, secondTcb]))) :=
  picksLeast_iff .tmr (pairOf_queue 7 4) (by decide) ⟨firstTcb, by decide, by decide, by decide⟩

/-- Of a thread of priority 5 and one of priority 4 behind it the pick returns the first. -/
theorem picksLeast_pair_fails : SchedReach (pairOf 5 4) ∧ (pairOf 5 4).sched.Queue [firstTcb, .dummy, secondTcb] ∧
    (pairOf 5 4).sched.Ready firstTcb ∧ (pairOf 5 4).sched.active firstTcb < uint16Max ∧
    ¬PicksLeast 3 .tmr (pairOf 5 4).sched [firstTcb, .dummy, secondTcb] := by
  refine ⟨pairOf_reach (by decide) (by decide), pairOf_queue 5 4, by decide, by decide, ?_⟩
  rintro ⟨y, s', he, hy⟩
  obtain rfl : firstTcb = y := by
    have h : ∃ s, schedulerPickNextThread 3 .tmr (pairOf 5 4).sched = .ok (firstTcb, s) := ⟨_, rfl⟩
    obtain ⟨s, h⟩ := h
    rw [h, Except.ok.injEq, Prod.mk.injEq] at he
    exact he.1
  have hle : (pairOf 5 4).sched.active firstTcb ≤ (pairOf 5 4).sched.active secondTcb := hy.le (by decide)
  exact absurd hle (by decide)

/-! ## Turns -/

/-- While a thread other than the running one is ready, the next tick dispatches a ready thread and not the running
one. -/
def NoContiguousTurns (r : SchedRun) : Prop :=
  (∃ x ∈ r.added, r.sched.runningTcb ≠ some x ∧ r.sched.Ready x) → ∀ fuel frame, r.added.length < fuel →
    ∃ s y, schedule fuel frame .tmr r.sched = .ok s ∧ s.runningTcb = some y ∧ r.sched.Ready y ∧
      r.sched.runningTcb ≠ some y

/-- A ready thread can be picked when there is one: its priority is not the one the loop starts with. -/
def ReadyPickable (r : SchedRun) : Prop :=
  (∃ x ∈ r.added, r.sched.Ready x) → ∃ x ∈ r.added, r.sched.Ready x ∧ r.sched.active x < uint16Max

/-- A thread's active priority stays at most one above its priority. -/
theorem SchedReach.active_le {r : SchedRun} (h : SchedReach r) {p : TcbPtr} (hp : p ∈ r.added) :
    r.sched.active p ≤ (r.sched.tcbs p).priority + 1 := by
  induction h generalizing p with
  | @init s t0 _ h0 ht =>
    rw [List.mem_singleton.1 hp, Sched.active, schedulerInit_tcbs_self h0 s]
    have := ht.active
    show (s.tcbs t0).activePriority ≤ (s.tcbs t0).priority + 1
    omega
  | @step r r' hr hs ih =>
    obtain ⟨q, y, hi⟩ := hr.inv
    cases hs with
    | @add s x t hx hnew hready ht he =>
      have hcore := schedulerAddThread_core he p
      rw [Sched.tcbs_modify] at hcore
      have hact := congrArg Tcb.activePriority hcore
      have hprio := congrArg Tcb.priority hcore
      show (s.tcbs p).core.activePriority ≤ (s.tcbs p).core.priority + 1
      rw [hact, hprio]
      split_ifs with hpx
      · exact ht.active.le.trans (Nat.le_succ _)
      · exact ih ((List.mem_cons.1 hp).resolve_left hpx)
    | tick fuel frame he =>
      obtain ⟨z, q', ht⟩ := hi.schedule_ticked he
      have := ih hp
      have hprio := hi.priority z (hi.picked_mem ht.picked)
      rw [ht.active, ht.priority, activeAfter, u16_of_lt (by omega)]
      split_ifs with hpz
      · rw [hpz]
      · omega
      · omega

/-- No thread has two turns in a row exactly while a ready thread can be picked, and so in every run to which no thread
of priority 65534 is added. -/
theorem noContiguousTurns_iff {r : SchedRun} (hreach : SchedReach r) :
    (NoContiguousTurns r ↔ ReadyPickable r) ∧
      ((∀ p ∈ r.added, (r.sched.tcbs p).priority ≠ 65534) → NoContiguousTurns r) := by
  obtain ⟨q, y, hi⟩ := hreach.inv
  have hiff : NoContiguousTurns r ↔ ReadyPickable r := by
    constructor
    · rintro h ⟨x, hx, hr⟩
      by_contra hnone
      push Not at hnone
      have hne : r.sched.runningTcb ≠ some x := by
        rw [hi.running, Ne, Option.some.injEq]
        exact (hi.ne_running hx hr).symm
      obtain ⟨s, z, hs, hz, hzr, hzy⟩ := h ⟨x, hx, hne, hr⟩ (r.added.length + 1) (fun _ => 0) (Nat.lt_succ_self _)
      obtain ⟨z', q', ht⟩ := hi.schedule_ticked hs
      obtain rfl : z' = z := Option.some.inj (ht.running.symm.trans hz)
      cases ht.picked with
      | found xs _ ys he _ hlt _ _ =>
        have := hnone z' (hi.mem_added (by simp [he]) hzr) hzr
        omega
      | fallback _ hn hl =>
        rw [(hi.fallback hn).2] at hl
        exact hzy (hi.running.trans hl)
    · rintro h ⟨x, hx, -, hr⟩ fuel frame hf
      obtain ⟨x', hx', hr', hlt'⟩ := h ⟨x, hx, hr⟩
      obtain ⟨z, q', s, hs, ht⟩ := schedule_spec frame hi.queue hi.two_le hi.running (hi.length_eq.trans_le hf)
      cases ht.picked with
      | found xs _ ys he hzr _ _ _ =>
        refine ⟨s, z, hs, ht.running, hzr, ?_⟩
        rw [hi.running, Ne, Option.some.injEq]
        exact (hi.ne_running (hi.mem_added (by simp [he]) hzr) hzr).symm
      | fallback _ hn _ =>
        have := hn x' (hi.mem hx') hr'
        omega
  refine ⟨hiff, fun hprio => hiff.2 ?_⟩
  rintro ⟨x, hx, hr⟩
  refine ⟨x, hx, hr, ?_⟩
  have := hreach.active_le hx
  have := hprio x hx
  have := hi.priority x hx
  unfold uint16Max
  omega

/-- Two threads of priorities 5 and 4 after a turn each. -/
def pairTurns : SchedRun := tickOnce (tickOnce (pairOf 5 4))

theorem noContiguousTurns_pair : pairTurns.ticks = 2 ∧ (NoContiguousTurns pairTurns ↔ ReadyPickable pairTurns) ∧
    ((∀ p ∈ pairTurns.added, (pairTurns.sched.tcbs p).priority ≠ 65534) → NoContiguousTurns pairTurns) :=
  ⟨rfl, noContiguousTurns_iff (tickOnce_reach (tickOnce_reach (pairOf_reach (by decide) (by decide))))⟩

/-- Two threads of priority 65534 after a turn each: the one that waits has the priority the loop starts with. -/
def afterTurns : SchedRun := tickOnce (tickOnce (pairOf 65534 65534))

theorem noContiguousTurns_fails : SchedReach afterTurns ∧ ¬NoContiguousTurns afterTurns := by
  refine ⟨tickOnce_reach (tickOnce_reach (pairOf_reach (by decide) (by decide))), fun h => ?_⟩
  obtain ⟨s, y, hs, hy, -, hne⟩ := h ⟨firstTcb, by decide, by decide, by decide⟩ 3 (fun _ => 0) (by decide)
  have hlast : (schedule 3 (fun _ => 0) .tmr afterTurns.sched).map (·.runningTcb) = .ok afterTurns.sched.runningTcb := rfl
  rw [hs] at hlast
  exact hne ((Except.ok.inj hlast).symm.trans hy)

end Icarus.Processes

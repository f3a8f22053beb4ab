/-
No thread starves: the priority of a waiting thread and the number of threads ahead of it in the
queue sum up to a bound on the ticks until it is dispatched.
-/
import Icarus.Processes.RunQueue
import Mathlib.Logic.Relation

namespace Icarus.Processes

open Icarus.Base Icarus.Interrupts

/-- The queue as `next` links it from `top_tcb`. -/
def Sched.queueList (s : Sched) : List TcbPtr := follow s.nextOf (s.threadCount + 1) s.topTcb

/-- The threads, the dummy not counted, ahead of `x` in `q`. -/
def ahead (q : List TcbPtr) (x : TcbPtr) : Nat := (q.takeWhile (· ≠ x)).countP (· ≠ .dummy)

/-- How many ticks `x` can still wait: its priority and the threads ahead of it. -/
def waitMeasure (s : Sched) (x : TcbPtr) : Nat := s.active x + ahead s.queueList x

/-! ## Threads ahead -/

theorem ahead_append {as bs : List TcbPtr} {x : TcbPtr} (h : x ∉ as) :
    ahead (as ++ x :: bs) x = as.countP (· ≠ .dummy) := by
  unfold ahead
  rw [List.takeWhile_append_of_pos]
  · simp
  · intro a ha
    simp only [decide_eq_true_eq]
    rintro rfl
    exact h ha

/-- A thread of the queue, with what is ahead of it and behind it. -/
theorem exists_split {q : List TcbPtr} {x : TcbPtr} (hx : x ∈ q) (hnd : q.Nodup) :
    ∃ as bs, q = as ++ x :: bs ∧ x ∉ as := by
  obtain ⟨as, bs, rfl⟩ := List.append_of_mem hx
  exact ⟨as, bs, rfl, fun h => (List.nodup_middle.1 hnd).notMem (List.mem_append_left _ h)⟩

/-- Threads that enter behind `x` are not ahead of it. -/
theorem ahead_append_right {q : List TcbPtr} {x : TcbPtr} (hx : x ∈ q) (hnd : q.Nodup) (ys : List TcbPtr) :
    ahead (q ++ ys) x = ahead q x := by
  obtain ⟨as, bs, rfl, h⟩ := exists_split hx hnd
  rw [ahead_append h, List.append_assoc, List.cons_append, ahead_append h]

/-- Moving a thread from behind `x` to the end leaves those ahead of it alone. -/
theorem ahead_move_behind {xs ys : List TcbPtr} {x y : TcbPtr} (hx : x ∈ xs) (hnd : (xs ++ y :: ys).Nodup) :
    ahead (xs ++ ys ++ [y]) x = ahead (xs ++ y :: ys) x := by
  have hnd' : xs.Nodup := (List.nodup_append.1 hnd).1
  rw [List.append_assoc, ahead_append_right hx hnd', ahead_append_right hx hnd']

/-- Moving a thread from ahead of `x` to the end makes one less ahead of it. -/
theorem ahead_move_ahead {xs ys : List TcbPtr} {x y : TcbPtr} (hx : x ∈ ys) (hy : y ≠ .dummy)
    (hnd : (xs ++ y :: ys).Nodup) :
    ahead (xs ++ ys ++ [y]) x + 1 = ahead (xs ++ y :: ys) x := by
  obtain ⟨-, hnd', hdis⟩ := List.nodup_append.1 hnd
  obtain ⟨hyx, hnd''⟩ := List.nodup_cons.1 hnd'
  obtain ⟨as, bs, rfl, h⟩ := exists_split hx hnd''
  have hxs : x ∉ xs := fun hm => hdis x hm x (by simp) rfl
  have hne : x ≠ y := fun he => hyx (by simp [← he])
  have hbefore : ahead (xs ++ y :: (as ++ x :: bs)) x = (xs ++ y :: as).countP (· ≠ .dummy) := by
    rw [← @ahead_append _ bs x (by simp [hxs, hne, h])]
    simp
  have hafter : ahead (xs ++ (as ++ x :: bs) ++ [y]) x = (xs ++ as).countP (· ≠ .dummy) := by
    rw [← @ahead_append _ (bs ++ [y]) x (by simp [hxs, h])]
    simp
  rw [hbefore, hafter, List.countP_append, List.countP_append, List.countP_cons_of_pos (by simpa using hy)]
  omega

/-! ## One step -/

section
variable {added q q' : List TcbPtr} {ticks : Nat} {s s' : Sched} {r x y : TcbPtr}

theorem QueueInv.queueList_eq (h : QueueInv added ticks s q r) : s.queueList = q :=
  h.queue.follow_eq (by rw [h.length_eq, h.count])

/-- The running thread is not ready. -/
theorem QueueInv.ne_running (h : QueueInv added ticks s q r) (hx : x ∈ added) (hr : s.Ready x) : x ≠ r := by
  intro he
  have := h.state x hx
  rw [if_pos he, hr] at this
  cases this

/-- A tick that does not dispatch a ready thread leaves it ready and its measure smaller. -/
theorem QueueInv.tick_waits (h : QueueInv added ticks s q r) (ht : Ticked s q r y q' s') (hx : x ∈ added)
    (hr : s.Ready x) (hxy : x ≠ y) : s'.Ready x ∧ waitMeasure s' x < waitMeasure s x := by
  have hxq : x ∈ q := h.mem hx
  constructor
  · have hxr := h.ne_running hx hr
    rw [Sched.Ready, ht.state, stateAfter, if_neg hxy, if_neg (fun he => hxr he.1), hr]
  · have hact : s'.active x = s.active x - 1 := by
      rw [ht.active, activeAfter, if_neg hxy, if_pos ⟨hxq, hr⟩]
    unfold waitMeasure
    rw [(h.tick ht).queueList_eq, h.queueList_eq, hact]
    cases ht.picked with
    | found xs _ ys he _ _ hxs _ =>
      subst he
      rcases List.mem_append.1 hxq with hm | hm
      · rw [ahead_move_behind hm h.queue.nodup]
        have := hxs x hm hr
        omega
      · have hm' : x ∈ ys := (List.mem_cons.1 hm).resolve_left hxy
        have hy : y ∈ added := h.picked_mem ht.picked
        have := ahead_move_ahead hm' (h.ne_dummy hy) h.queue.nodup
        omega
    | fallback _ hn _ =>
      have := hn x hxq hr
      unfold uint16Max at this
      omega

/-- An addition leaves a ready thread ready and its measure as it was. -/
theorem QueueInv.add_waits {t : Tcb} {p : TcbPtr} (h : QueueInv added ticks s q r) (hp : p ≠ .dummy)
    (hnew : p ∉ added) (hready : t.state = .ready) (ht : t.Fresh)
    (he : schedulerAddThread p (s.modify p fun _ => t) = .ok s') (hx : x ∈ added) (hr : s.Ready x) :
    s'.Ready x ∧ waitMeasure s' x = waitMeasure s x := by
  obtain ⟨s₁, he₁, hi, hcore⟩ := h.add hp hnew hready ht
  rw [he] at he₁
  cases he₁
  have hact : s'.active x = s.active x := (congrArg Tcb.activePriority (hcore x hx) :)
  have hst : (s'.tcbs x).state = (s.tcbs x).state := (congrArg Tcb.state (hcore x hx) :)
  refine ⟨hst.trans hr, ?_⟩
  unfold waitMeasure
  rw [hi.queueList_eq, h.queueList_eq, hact, ahead_append_right (h.mem hx) h.queue.nodup]

end

/-! ## Runs -/

/-- `x` is a ready thread of the queue. -/
def Waiting (x : TcbPtr) (r : SchedRun) : Prop := x ∈ r.added ∧ r.sched.Ready x

/-- What a step that does not dispatch `x` does to its measure: a tick makes it smaller. -/
theorem SchedStep.waits {r r' : SchedRun} {x : TcbPtr} (hreach : SchedReach r) (hs : SchedStep r r')
    (hx : Waiting x r) (hne : r'.sched.runningTcb ≠ some x) :
    Waiting x r' ∧ waitMeasure r'.sched x + r'.ticks ≤ waitMeasure r.sched x + r.ticks := by
  obtain ⟨q, y, hi⟩ := hreach.inv
  cases hs with
  | add p t hp hnew hready ht he =>
    obtain ⟨hr', hm⟩ := hi.add_waits hp hnew hready ht he hx.1 hx.2
    exact ⟨⟨List.mem_cons_of_mem _ hx.1, hr'⟩, by simp only [hm, le_refl]⟩
  | tick fuel frame he =>
    obtain ⟨z, q', ht⟩ := hi.schedule_ticked he
    have hxz : x ≠ z := by
      rintro rfl
      exact hne ht.running
    obtain ⟨hr', hlt⟩ := hi.tick_waits ht hx.1 hx.2 hxz
    refine ⟨⟨hx.1, hr'⟩, ?_⟩
    dsimp only
    omega

/-- The steps of a run lead from a reachable state to reachable states. -/
theorem SchedReach.run {run : Nat → SchedRun} (h0 : SchedReach (run 0)) :
    ∀ n, (∀ k < n, SchedStep (run k) (run (k + 1))) → SchedReach (run n)
  | 0, _ => h0
  | n + 1, hstep => .step (h0.run n fun k hk => hstep k (by omega)) (hstep n (Nat.lt_succ_self n))

/-- A run in which `x` is never dispatched. -/
theorem waits_run {run : Nat → SchedRun} {x : TcbPtr} (h0 : SchedReach (run 0)) (hx : Waiting x (run 0)) :
    ∀ n, (∀ k < n, SchedStep (run k) (run (k + 1))) → (∀ k < n, (run (k + 1)).sched.runningTcb ≠ some x) →
      Waiting x (run n) ∧ waitMeasure (run n).sched x + (run n).ticks ≤ waitMeasure (run 0).sched x + (run 0).ticks
  | 0, _, _ => ⟨hx, le_refl _⟩
  | n + 1, hstep, hne => by
    have hbefore : ∀ k < n, SchedStep (run k) (run (k + 1)) := fun k hk => hstep k (by omega)
    obtain ⟨hw, hle⟩ := waits_run h0 hx n hbefore fun k hk => hne k (by omega)
    obtain ⟨hw', hle'⟩ := (hstep n (by omega)).waits (h0.run n hbefore) hw (hne n (by omega))
    exact ⟨hw', hle'.trans hle⟩

/-- The measure of a ready thread: ticks that do not dispatch it make it smaller, additions do not
make it larger, at zero the next tick dispatches it, and so every run with more ticks than it
dispatches the thread. No run gets stuck before: wherever it is, a tick and an addition return. -/
theorem no_starvation {r : SchedRun} {x : TcbPtr} (hreach : SchedReach r) (hx : x ∈ r.added) (hr : r.sched.Ready x) :
    (∀ (run : Nat → SchedRun) (n : Nat), run 0 = r → (∀ k < n, SchedStep (run k) (run (k + 1))) →
      (∀ fuel frame, (run n).added.length < fuel → ∃ s, schedule fuel frame .tmr (run n).sched = .ok s) ∧
      ∀ p t, ∃ s, schedulerAddThread p ((run n).sched.modify p fun _ => t) = .ok s) ∧
    (∀ fuel frame s, schedule fuel frame .tmr r.sched = .ok s → s.runningTcb ≠ some x →
      waitMeasure s x < waitMeasure r.sched x) ∧
    (∀ p t s, p ≠ .dummy → p ∉ r.added → t.state = .ready → t.Fresh →
      schedulerAddThread p (r.sched.modify p fun _ => t) = .ok s → waitMeasure s x ≤ waitMeasure r.sched x) ∧
    (waitMeasure r.sched x = 0 → ∀ fuel frame s, schedule fuel frame .tmr r.sched = .ok s → s.runningTcb = some x) ∧
    (∀ (run : Nat → SchedRun) (n : Nat), run 0 = r → (∀ k < n, SchedStep (run k) (run (k + 1))) →
      r.ticks + waitMeasure r.sched x < (run n).ticks → ∃ k < n, (run (k + 1)).sched.runningTcb = some x) := by
  obtain ⟨q, y, hi⟩ := hreach.inv
  have hdec : ∀ fuel frame s, schedule fuel frame .tmr r.sched = .ok s → s.runningTcb ≠ some x →
      waitMeasure s x < waitMeasure r.sched x := by
    intro fuel frame s hs hne
    obtain ⟨z, q', ht⟩ := hi.schedule_ticked hs
    refine (hi.tick_waits ht hx hr ?_).2
    rintro rfl
    exact hne ht.running
  refine ⟨fun run n h0 hstep => ?_, hdec, fun p t s hp hnew hready ht hs => ?_, fun h0 fuel frame s hs => ?_,
    fun run n h0 hstep hlt => ?_⟩
  · subst h0
    obtain ⟨_, _, hn⟩ := (hreach.run n hstep).inv
    exact ⟨hn.serves.ticks, hn.serves.adds⟩
  · exact (hi.add_waits hp hnew hready ht hs hx hr).2.le
  · by_contra hne
    have := hdec fuel frame s hs hne
    omega
  · by_contra hnone
    push Not at hnone
    subst h0
    have := (waits_run hreach ⟨hx, hr⟩ n hstep hnone).2
    omega

theorem no_starvation_twoTurns : SchedReach twoTurns ∧ waitMeasure twoTurns.sched firstTcb = 1 ∧
    (∃ s, schedule 3 (fun _ => 0) .tmr twoTurns.sched = .ok s) ∧
    ∀ (run : Nat → SchedRun) (n : Nat), run 0 = twoTurns → (∀ k < n, SchedStep (run k) (run (k + 1))) →
      twoTurns.ticks + waitMeasure twoTurns.sched firstTcb < (run n).ticks →
      ∃ k < n, (run (k + 1)).sched.runningTcb = some firstTcb := by
  have h := no_starvation twoTurns_reach (x := firstTcb) (by decide) (by decide)
  exact ⟨twoTurns_reach, by decide, (h.1 (fun _ => twoTurns) 0 rfl nofun).1 3 _ (by decide), h.2.2.2.2⟩

end Icarus.Processes

/-
What a timer tick does: what one pass of the pick over the queue finds, how the picked thread moves
to the end of the queue, and what the switch leaves in the threads.
-/
import Icarus.Processes.Scheduler

namespace Icarus.Processes

open Icarus.Base Icarus.Interrupts

/-! ## Fields of written control blocks -/

/-- A control block without its links. -/
def Tcb.core (t : Tcb) : Tcb := { t with next := none, prev := none }

namespace Sched

variable (s : Sched) (p x : TcbPtr)

@[simp] theorem tcbs_modify_self (f : Tcb → Tcb) : (s.modify p f).tcbs p = f (s.tcbs p) :=
  Function.update_self ..

theorem tcbs_modify_of_ne {p x : TcbPtr} (h : x ≠ p) (f : Tcb → Tcb) : (s.modify p f).tcbs x = s.tcbs x :=
  Function.update_of_ne h ..

theorem tcbs_modify (f : Tcb → Tcb) : (s.modify p f).tcbs x = if x = p then f (s.tcbs p) else s.tcbs x := by
  split_ifs with h
  · rw [h, tcbs_modify_self]
  · exact s.tcbs_modify_of_ne h f

theorem modify_modify (f g : Tcb → Tcb) : (s.modify p f).modify p g = s.modify p fun t => g (f t) := by
  unfold modify
  simp only [Function.update_self, Function.update_idem]

/-- Writing one field of one control block writes that field's function at one place. -/
theorem field_modify {α : Type} (g : Tcb → α) (f : Tcb → Tcb) :
    (fun x => g ((s.modify p f).tcbs x)) = Function.update (fun x => g (s.tcbs x)) p (g (f (s.tcbs p))) := by
  funext x
  rw [tcbs_modify, Function.update_apply]
  split_ifs <;> rfl

theorem field_modify_same {α : Type} {g : Tcb → α} {f : Tcb → Tcb} (h : ∀ t, g (f t) = g t) :
    (fun x => g ((s.modify p f).tcbs x)) = fun x => g (s.tcbs x) := by
  rw [field_modify, h]
  exact Function.update_eq_self ..

@[simp] theorem nextOf_setNext (v : Option TcbPtr) : (s.setNext p v).nextOf = Function.update s.nextOf p v :=
  s.field_modify p _ _

@[simp] theorem prevOf_setNext (v : Option TcbPtr) : (s.setNext p v).prevOf = s.prevOf :=
  s.field_modify_same p fun _ => rfl

@[simp] theorem nextOf_setPrev (v : Option TcbPtr) : (s.setPrev p v).nextOf = s.nextOf :=
  s.field_modify_same p fun _ => rfl

@[simp] theorem prevOf_setPrev (v : Option TcbPtr) : (s.setPrev p v).prevOf = Function.update s.prevOf p v :=
  s.field_modify p _ _

/-- What the links of the queue do not say: the threads and the globals other than the ends of the
queue. -/
structure SameThreads (s s' : Sched) : Prop where
  core : ∀ p, (s'.tcbs p).core = (s.tcbs p).core
  running : s'.runningTcb = s.runningTcb
  count : s'.threadCount = s.threadCount

theorem SameThreads.refl : SameThreads s s := ⟨fun _ => rfl, rfl, rfl⟩

variable {s p x} {s' s'' : Sched}

theorem SameThreads.trans (h : SameThreads s s') (h' : SameThreads s' s'') : SameThreads s s'' :=
  ⟨fun p => (h'.core p).trans (h.core p), h'.running.trans h.running, h'.count.trans h.count⟩

theorem SameThreads.modify {f : Tcb → Tcb} (h : SameThreads s s') (p : TcbPtr) (hf : ∀ t, (f t).core = t.core) :
    SameThreads s (s'.modify p f) :=
  ⟨fun x => (congrFun (s'.field_modify_same p hf) x).trans (h.core x), h.running, h.count⟩

theorem SameThreads.setNext (h : SameThreads s s') (p : TcbPtr) (v : Option TcbPtr) :
    SameThreads s (s'.setNext p v) :=
  h.modify p fun _ => rfl

theorem SameThreads.setPrev (h : SameThreads s s') (p : TcbPtr) (v : Option TcbPtr) :
    SameThreads s (s'.setPrev p v) :=
  h.modify p fun _ => rfl

/-- The queue, from `top_tcb` to `last_tcb`. -/
abbrev Queue (s : Sched) (q : List TcbPtr) : Prop := Linked s.nextOf s.prevOf s.topTcb s.lastTcb q

end Sched

/-! ## One pass of the pick -/

/-- The thread can be picked. -/
abbrev Sched.Ready (s : Sched) (p : TcbPtr) : Prop := (s.tcbs p).state = .ready

/-- `active_priority` of a thread of the queue. -/
abbrev Sched.active (s : Sched) (p : TcbPtr) : Nat := (s.tcbs p).activePriority

/-- What the loop does to a control block it visits: a ready thread becomes more urgent. -/
def Tcb.decay (t : Tcb) : Tcb :=
  if t.state = .ready then { t with activePriority := saturatingDec16 t.activePriority } else t

/-- Every thread of `q` visited. -/
def Sched.pass (s : Sched) (q : List TcbPtr) : Sched :=
  { s with tcbs := fun p => if p ∈ q then (s.tcbs p).decay else s.tcbs p }

/-- What the loop leaves in `best_tcb` and `max_priority` after the threads of `q`: what they were,
or the last thread that undercut all before it. -/
inductive PassResult (s : Sched) (q : List TcbPtr) (best : Option TcbPtr) (max : Nat) : Option TcbPtr → Nat → Prop
  | none : (∀ x ∈ q, s.Ready x → max ≤ s.active x) → PassResult s q best max best max
  | found (xs : List TcbPtr) (y : TcbPtr) (ys : List TcbPtr) : q = xs ++ y :: ys → s.Ready y →
      s.active y < max → (∀ x ∈ xs, s.Ready x → s.active y < s.active x) →
      (∀ z ∈ ys, s.Ready z → saturatingDec16 (s.active y) ≤ s.active z) →
      PassResult s q best max (some y) (saturatingDec16 (s.active y))

theorem saturatingDec16_eq (a : Nat) : saturatingDec16 a = a - 1 := by
  unfold saturatingDec16
  split_ifs with h <;> omega

theorem Tcb.decay_of_ready {t : Tcb} (h : t.state = .ready) :
    t.decay = { t with activePriority := saturatingDec16 t.activePriority } := if_pos h

theorem Tcb.decay_of_not_ready {t : Tcb} (h : t.state ≠ .ready) : t.decay = t := if_neg h

theorem Tcb.decay_next (t : Tcb) : t.decay.next = t.next := by
  unfold decay
  split_ifs <;> rfl

theorem Tcb.decay_prev (t : Tcb) : t.decay.prev = t.prev := by
  unfold decay
  split_ifs <;> rfl

theorem Sched.pass_nil (s : Sched) : s.pass [] = s := by
  unfold Sched.pass
  simp

theorem Sched.pass_cons {s : Sched} {x : TcbPtr} {q : List TcbPtr} (hq : x ∉ q) :
    (s.modify x Tcb.decay).pass q = s.pass (x :: q) := by
  unfold Sched.pass
  refine congrArg (fun f => { s with tcbs := f }) (funext fun p => ?_)
  by_cases hp : p = x
  · subst hp
    rw [if_neg hq, if_pos (List.mem_cons_self ..), Sched.tcbs_modify_self]
  · rw [Sched.tcbs_modify_of_ne s hp]
    simp [hp]

section
variable {s : Sched} {x : TcbPtr} {q : List TcbPtr} {best best' : Option TcbPtr} {max max' : Nat}

/-- A thread that is not ready, or not more urgent than the best so far. -/
theorem PassResult.skip (hx : s.Ready x → max ≤ s.active x) (h : PassResult s q best max best' max') :
    PassResult s (x :: q) best max best' max' := by
  cases h with
  | none h =>
    refine .none fun z hz hzr => ?_
    rcases List.mem_cons.1 hz with rfl | hz
    · exact hx hzr
    · exact h z hz hzr
  | found xs y ys he hr hlt hxs hys =>
    refine .found (x :: xs) y ys (by rw [he]; rfl) hr hlt (fun z hz hzr => ?_) hys
    rcases List.mem_cons.1 hz with rfl | hz
    · exact lt_of_lt_of_le hlt (hx hzr)
    · exact hxs z hz hzr

/-- The new best: what follows has to undercut its lowered priority. -/
theorem PassResult.pick (hx : s.Ready x) (hlt : s.active x < max)
    (h : PassResult s q (some x) (saturatingDec16 (s.active x)) best' max') :
    PassResult s (x :: q) best max best' max' := by
  cases h with
  | none h => exact .found [] x q rfl hx hlt (fun z hz => nomatch hz) h
  | found xs y ys he hr hlt' hxs hys =>
    have hle : saturatingDec16 (s.active x) ≤ s.active x := by rw [saturatingDec16_eq]; omega
    refine .found (x :: xs) y ys (by rw [he]; rfl) hr (by omega) (fun z hz hzr => ?_) hys
    rcases List.mem_cons.1 hz with rfl | hz
    · exact lt_of_lt_of_le hlt' hle
    · exact hxs z hz hzr

end

/-- What the loop keeps of a thread: the new best and what the next one has to undercut. -/
def pickStep (s : Sched) (r : Option TcbPtr × Nat) (x : TcbPtr) : Option TcbPtr × Nat :=
  if s.Ready x ∧ s.active x < r.2 then (some x, saturatingDec16 (s.active x)) else r

/-- The loop visits every thread of the queue once and compares the priorities the threads came with. -/
theorem pickLoop_foldl : ∀ {q : List TcbPtr} {s : Sched} {b : Option TcbPtr} {fuel : Nat} (r : Option TcbPtr × Nat),
    Seg s.nextOf s.prevOf b q none → q.Nodup → q.length ≤ fuel →
      pickLoop fuel q.head? s r.1 r.2 = .ok (s.pass q, q.foldl (pickStep s) r)
  | [], s, _, fuel, r, _, _, _ => by cases fuel <;> rw [s.pass_nil] <;> rfl
  | x :: q, s, _, fuel + 1, r, ⟨hp, hn, hs⟩, hnd, hf => by
    obtain ⟨hx, hq⟩ := List.nodup_cons.1 hnd
    rw [Option.or_none] at hn
    have hs' : Seg (s.modify x Tcb.decay).nextOf (s.modify x Tcb.decay).prevOf (some x) q none := by
      refine hs.congr fun z _ => ⟨?_, ?_⟩
      · exact congrFun (s.field_modify_same x Tcb.decay_next) z
      · exact congrFun (s.field_modify_same x Tcb.decay_prev) z
    have step := fun r => pickLoop_foldl r hs' hq (Nat.le_of_succ_le_succ hf)
    rw [Sched.pass_cons hx] at step
    -- the thread just visited is not met again, so the others are compared as they came
    have hsame : ∀ r, q.foldl (pickStep (s.modify x Tcb.decay)) r = q.foldl (pickStep s) r := by
      refine fun r => List.foldl_ext _ _ r fun r z hz => ?_
      have hzx : z ≠ x := by
        rintro rfl
        exact hx hz
      simp only [pickStep, Sched.Ready, Sched.active, s.tcbs_modify_of_ne hzx]
    simp only [hsame] at step
    have hnext : (s.tcbs x).next = q.head? := hn
    unfold pickLoop
    simp only [List.head?_cons, hnext, List.foldl_cons]
    by_cases hr : s.Ready x
    · have hmod : s.setActivePriority x (saturatingDec16 (s.tcbs x).activePriority) = s.modify x Tcb.decay := by
        unfold Sched.setActivePriority Sched.modify
        rw [Tcb.decay_of_ready hr]
      rw [if_neg (not_not.2 hr), hmod]
      split_ifs with hge
      · rw [pickStep, if_neg (fun h => absurd h.2 (Nat.not_lt.2 hge))]
        exact step r
      · rw [pickStep, if_pos ⟨hr, Nat.lt_of_not_le hge⟩]
        exact step (some x, saturatingDec16 (s.tcbs x).activePriority)
    · have hmod : s.modify x Tcb.decay = s := by
        unfold Sched.modify
        rw [Tcb.decay_of_not_ready hr, Function.update_eq_self]
      rw [if_pos hr, pickStep, if_neg (fun h => hr h.1)]
      rw [hmod] at step
      exact step r

theorem passResult_foldl (s : Sched) : ∀ (q : List TcbPtr) (r : Option TcbPtr × Nat),
    PassResult s q r.1 r.2 (q.foldl (pickStep s) r).1 (q.foldl (pickStep s) r).2
  | [], r => .none fun x hx => nomatch hx
  | x :: q, r => by
    have ih := passResult_foldl s q (pickStep s r x)
    rw [List.foldl_cons]
    unfold pickStep at ih ⊢
    split_ifs at ih ⊢ with h
    · exact ih.pick h.1 h.2
    · exact ih.skip fun hr => Nat.le_of_not_lt fun hlt => h ⟨hr, hlt⟩

/-- The loop finds the last thread that undercut all before it. -/
theorem pickLoop_spec {q : List TcbPtr} {s : Sched} {b : Option TcbPtr} {fuel : Nat} (best : Option TcbPtr) (max : Nat)
    (hs : Seg s.nextOf s.prevOf b q none) (hq : q.Nodup) (hf : q.length ≤ fuel) :
    ∃ best' max', pickLoop fuel q.head? s best max = .ok (s.pass q, best', max') ∧ PassResult s q best max best' max' :=
  ⟨_, _, pickLoop_foldl (best, max) hs hq hf, passResult_foldl s q (best, max)⟩

/-- More rounds change nothing once the loop has ended. -/
theorem pickLoop_mono {fuel fuel' : Nat} {p : Option TcbPtr} {s : Sched} {best : Option TcbPtr} {max : Nat}
    {r : Sched × Option TcbPtr × Nat} (h : pickLoop fuel p s best max = .ok r) (hf : fuel ≤ fuel') :
    pickLoop fuel' p s best max = .ok r := by
  induction fuel generalizing fuel' p s best max with
  | zero =>
    cases p with
    | none =>
      cases fuel'
      · exact h
      · exact h
    | some p => cases h
  | succ fuel ih =>
    obtain ⟨fuel', rfl⟩ : ∃ n, fuel' = n + 1 := ⟨fuel' - 1, by omega⟩
    have hf' : fuel ≤ fuel' := by omega
    cases p with
    | none => exact h
    | some p =>
      unfold pickLoop at h ⊢
      dsimp only at h ⊢
      split_ifs at h ⊢
      · exact ih h hf'
      · exact ih h hf'
      · exact ih h hf'

theorem schedule_mono {fuel fuel' : Nat} {frame : Mem} {src : InterruptSrc} {s s' : Sched}
    (h : schedule fuel frame src s = .ok s') (hf : fuel ≤ fuel') : schedule fuel' frame src s = .ok s' := by
  obtain ⟨⟨y, s₁⟩, hpick, hswitch⟩ := bind_eq_ok.1 h
  obtain ⟨r, hloop, hrest⟩ := bind_eq_ok.1 hpick
  exact bind_eq_ok.2 ⟨(y, s₁), bind_eq_ok.2 ⟨r, pickLoop_mono hloop hf, hrest⟩, hswitch⟩

/-! ## Moving the picked thread -/

namespace Sched

variable {s : Sched} {q : List TcbPtr}

theorem queue_modify {f : Tcb → Tcb} {p : TcbPtr} (hn : ∀ t, (f t).next = t.next) (hp : ∀ t, (f t).prev = t.prev) :
    (s.modify p f).Queue q ↔ s.Queue q := by
  unfold Queue
  rw [show (s.modify p f).nextOf = s.nextOf from s.field_modify_same p hn,
    show (s.modify p f).prevOf = s.prevOf from s.field_modify_same p hp]
  rfl

theorem queue_setActivePriority (p : TcbPtr) (v : Nat) : (s.setActivePriority p v).Queue q ↔ s.Queue q :=
  queue_modify (f := fun t => { t with activePriority := v }) (fun _ => rfl) fun _ => rfl

theorem queue_setState (p : TcbPtr) (v : ThreadState) : (s.setState p v).Queue q ↔ s.Queue q :=
  queue_modify (f := fun t => { t with state := v }) (fun _ => rfl) fun _ => rfl

theorem queue_pass (xs : List TcbPtr) : (s.pass xs).Queue q ↔ s.Queue q := by
  have hn : (s.pass xs).nextOf = s.nextOf := by
    funext p
    show Tcb.next (if p ∈ xs then (s.tcbs p).decay else s.tcbs p) = _
    split_ifs
    · exact Tcb.decay_next _
    · rfl
  have hp : (s.pass xs).prevOf = s.prevOf := by
    funext p
    show Tcb.prev (if p ∈ xs then (s.tcbs p).decay else s.tcbs p) = _
    split_ifs
    · exact Tcb.decay_prev _
    · rfl
  unfold Queue
  rw [hn, hp]
  rfl

end Sched

theorem putLast_spec {s : Sched} {q : List TcbPtr} {y : TcbPtr} (hq : s.Queue q) (hne : q ≠ []) (hy : y ∉ q) :
    ∃ s', putLast y s = .ok (y, s') ∧ s'.Queue (q ++ [y]) ∧ Sched.SameThreads s s' := by
  obtain ⟨l, hl⟩ := hq.exists_last hne
  unfold Sched.Queue at hq
  rw [hl] at hq
  refine ⟨{ ((s.setNext l (some y)).setPrev y (some l)).setNext y none with lastTcb := some y }, ?_, ?_, ?_⟩
  · unfold putLast
    rw [hl]
    rfl
  · have h := hq.push hy
    rw [← Sched.nextOf_setNext, ← Sched.nextOf_setPrev (s.setNext l (some y)) y (some l), ← Sched.nextOf_setNext,
      ← Sched.prevOf_setNext s l (some y), ← Sched.prevOf_setPrev, ← Sched.prevOf_setNext _ y none] at h
    exact h
  · have h := (((Sched.SameThreads.refl s).setNext l (some y)).setPrev y (some l)).setNext y none
    exact ⟨h.core, h.running, h.count⟩

/-- The picked thread moves to the end of the queue, wherever it was. -/
theorem unlinkBest_spec {s : Sched} {xs ys : List TcbPtr} {y : TcbPtr} (hq : s.Queue (xs ++ y :: ys))
    (hne : xs ++ ys ≠ []) :
    ∃ s', unlinkBest y s = .ok (y, s') ∧ s'.Queue (xs ++ ys ++ [y]) ∧ Sched.SameThreads s s' := by
  obtain ⟨-, hprev, hnext, -⟩ := seg_append.1 hq.seg
  have hy : y ∉ xs ++ ys := (List.nodup_middle.1 hq.nodup).notMem
  unfold unlinkBest
  rw [hprev, hnext, Option.or_none, Option.or_none]
  rcases List.eq_nil_or_concat xs with rfl | ⟨xs, p, rfl⟩
  · -- first in the queue
    cases ys with
    | nil => exact absurd rfl hne
    | cons z zs =>
      have h : ({ s with topTcb := some z }.setPrev z none).Queue (z :: zs) := by
        unfold Sched.Queue
        rw [Sched.nextOf_setPrev, Sched.prevOf_setPrev]
        exact hq.unlinkHead
      obtain ⟨s', he, hq', hs⟩ := putLast_spec h (by simp) hy
      have h0 : Sched.SameThreads s { s with topTcb := some z } := ⟨fun _ => rfl, rfl, rfl⟩
      exact ⟨s', he, hq', (h0.setPrev z none).trans hs⟩
  · rw [List.concat_eq_append] at hq hy ⊢
    rw [List.getLast?_append, List.getLast?_singleton, Option.some_or]
    cases ys with
    | nil => exact ⟨s, rfl, by simpa using hq, .refl s⟩
    | cons z zs =>
      have h : ((s.setNext p (some z)).setPrev z (some p)).Queue (xs ++ [p] ++ z :: zs) := by
        unfold Sched.Queue
        rw [Sched.nextOf_setPrev, Sched.nextOf_setNext, Sched.prevOf_setPrev, Sched.prevOf_setNext]
        rw [List.append_assoc, List.singleton_append] at hq ⊢
        exact hq.unlinkMid
      obtain ⟨s', he, hq', hs⟩ := putLast_spec h (by simp) hy
      exact ⟨s', he, hq', (((Sched.SameThreads.refl s).setNext p (some z)).setPrev z (some p)).trans hs⟩

/-- The only entry of a queue has no successor to become the top. -/
theorem unlinkBest_alone {s : Sched} {y : TcbPtr} (hq : s.Queue [y]) : unlinkBest y s = .error (.badAddress 0) := by
  obtain ⟨hprev, hnext, -⟩ := hq.seg
  unfold unlinkBest
  rw [hprev, hnext]
  rfl

/-! ## The tick -/

/-- Which thread the pick returns and how the queue is ordered afterwards: a ready thread that
undercuts all before it and is not undercut behind it, or the last one when no ready thread can be
picked. -/
inductive Picked (s : Sched) (q : List TcbPtr) : TcbPtr → List TcbPtr → Prop
  | found (xs : List TcbPtr) (y : TcbPtr) (ys : List TcbPtr) : q = xs ++ y :: ys → s.Ready y →
      s.active y < uint16Max → (∀ x ∈ xs, s.Ready x → s.active y < s.active x) →
      (∀ z ∈ ys, s.Ready z → s.active y - 1 ≤ s.active z) → Picked s q y (xs ++ ys ++ [y])
  | fallback (y : TcbPtr) : (∀ x ∈ q, s.Ready x → uint16Max ≤ s.active x) → s.lastTcb = some y → Picked s q y q

/-- The priorities after a pick: the picked thread re-priced, every other ready one of the queue
more urgent. -/
def activeAfter (s : Sched) (q : List TcbPtr) (y p : TcbPtr) : Nat :=
  if p = y then u16 ((s.tcbs y).priority + 1) else if p ∈ q ∧ s.Ready p then s.active p - 1 else s.active p

/-- The states after a tick: the picked thread runs, the interrupted one is ready again. -/
def stateAfter (s : Sched) (r y p : TcbPtr) : ThreadState :=
  if p = y then .running else if p = r ∧ r ≠ .dummy then .ready else (s.tcbs p).state

theorem active_pass (s : Sched) (q : List TcbPtr) (p : TcbPtr) :
    (s.pass q).active p = if p ∈ q ∧ s.Ready p then s.active p - 1 else s.active p := by
  show Tcb.activePriority (if p ∈ q then (s.tcbs p).decay else s.tcbs p) = _
  by_cases hq : p ∈ q
  · by_cases hr : s.Ready p
    · rw [if_pos hq, if_pos ⟨hq, hr⟩, Tcb.decay_of_ready hr]
      exact saturatingDec16_eq _
    · rw [if_pos hq, if_neg (fun h => hr h.2), Tcb.decay_of_not_ready hr]
  · rw [if_neg hq, if_neg (fun h => hq h.1)]

theorem Tcb.decay_state (t : Tcb) : t.decay.state = t.state := by
  unfold decay
  split_ifs <;> rfl

theorem Tcb.decay_priority (t : Tcb) : t.decay.priority = t.priority := by
  unfold decay
  split_ifs <;> rfl

/-- A field the loop leaves alone. -/
theorem field_pass {α : Type} {g : Tcb → α} (hg : ∀ t : Tcb, g t.decay = g t) (s : Sched) (q : List TcbPtr)
    (p : TcbPtr) : g ((s.pass q).tcbs p) = g (s.tcbs p) := by
  show g (if p ∈ q then (s.tcbs p).decay else s.tcbs p) = _
  split_ifs
  · exact hg _
  · rfl

/-- What a pick does to the threads. -/
structure PickedThreads (s : Sched) (q : List TcbPtr) (y : TcbPtr) (s' : Sched) : Prop where
  priority : ∀ p, (s'.tcbs p).priority = (s.tcbs p).priority
  active : ∀ p, s'.active p = activeAfter s q y p
  state : ∀ p, p ≠ y → (s'.tcbs p).state = (s.tcbs p).state
  running : s'.runningTcb = s.runningTcb
  count : s'.threadCount = s.threadCount

/-- Re-pricing after the pass, whatever else it writes in the picked thread. -/
theorem pickedThreads_pass {s : Sched} {q : List TcbPtr} {y : TcbPtr} {f : Tcb → Tcb}
    (hf : ∀ t, (f t).priority = t.priority)
    (ha : (f ((s.pass q).tcbs y)).activePriority = u16 ((s.tcbs y).priority + 1)) :
    PickedThreads s q y ((s.pass q).modify y f) := by
  refine ⟨fun p => ?_, fun p => ?_, fun p hp => ?_, rfl, rfl⟩
  · rw [congrFun (Sched.field_modify_same _ y hf) p]
    exact field_pass Tcb.decay_priority s q p
  · unfold activeAfter
    split_ifs with hp hr
    · rw [hp, Sched.active, Sched.tcbs_modify_self, ha]
    · rw [Sched.active, Sched.tcbs_modify_of_ne _ hp]
      exact (active_pass s q p).trans (if_pos hr)
    · rw [Sched.active, Sched.tcbs_modify_of_ne _ hp]
      exact (active_pass s q p).trans (if_neg hr)
  · rw [Sched.tcbs_modify_of_ne _ hp]
    exact field_pass Tcb.decay_state s q p

theorem PickedThreads.of_sameThreads {s s' s'' : Sched} {q : List TcbPtr} {y : TcbPtr} (h : PickedThreads s q y s')
    (hs : Sched.SameThreads s' s'') : PickedThreads s q y s'' := by
  refine ⟨fun p => ?_, fun p => ?_, fun p hp => ?_, hs.running.trans h.running, hs.count.trans h.count⟩
  · exact (congrArg Tcb.priority (hs.core p)).trans (h.priority p)
  · exact (congrArg Tcb.activePriority (hs.core p)).trans (h.active p)
  · exact (congrArg Tcb.state (hs.core p)).trans (h.state p hp)

/-- A pick whose loop found a thread re-prices it and takes it out of its position, whatever the interrupt source. -/
theorem pick_eq_unlinkBest {s : Sched} {q : List TcbPtr} {y : TcbPtr} {fuel max : Nat} (src : InterruptSrc)
    (hq : s.Queue q) (hloop : pickLoop fuel s.topTcb s s.topTcb uint16Max = .ok (s.pass q, some y, max))
    (hmax : max ≠ uint16Max) :
    ∃ s', schedulerPickNextThread fuel src s = unlinkBest y s' ∧ s'.Queue q ∧ PickedThreads s q y s' := by
  let s₁ := ((s.pass q).setActivePriority y (u16 (((s.pass q).tcbs y).priority + 1))).setState y .running
  have hs₁ : s₁ = (s.pass q).modify y fun t =>
      { t with activePriority := u16 (((s.pass q).tcbs y).priority + 1), state := .running } :=
    Sched.modify_modify ..
  refine ⟨s₁, ?_, ?_, ?_⟩
  · unfold schedulerPickNextThread
    rw [hloop]
    show (if max = uint16Max then _ else _) = _
    rw [if_neg hmax]
    rfl
  · exact (Sched.queue_setState ..).2 ((Sched.queue_setActivePriority ..).2 ((Sched.queue_pass q).2 hq))
  · rw [hs₁]
    refine pickedThreads_pass (fun _ => rfl) ?_
    rw [field_pass Tcb.decay_priority]

theorem pick_found {s : Sched} {xs ys : List TcbPtr} {y : TcbPtr} {fuel max : Nat} (src : InterruptSrc)
    (hq : s.Queue (xs ++ y :: ys)) (hne : xs ++ ys ≠ [])
    (hloop : pickLoop fuel s.topTcb s s.topTcb uint16Max = .ok (s.pass (xs ++ y :: ys), some y, max))
    (hmax : max ≠ uint16Max) :
    ∃ s', schedulerPickNextThread fuel src s = .ok (y, s') ∧ s'.Queue (xs ++ ys ++ [y]) ∧
      PickedThreads s (xs ++ y :: ys) y s' := by
  obtain ⟨s₁, he, hq₁, ht⟩ := pick_eq_unlinkBest src hq hloop hmax
  obtain ⟨s', he', hq', hs'⟩ := unlinkBest_spec hq₁ hne
  exact ⟨s', he.trans he', hq', ht.of_sameThreads hs'⟩

theorem schedulerPickNextThread_spec {s : Sched} {q : List TcbPtr} {fuel : Nat} (hq : s.Queue q)
    (hlen : 2 ≤ q.length) (hf : q.length ≤ fuel) :
    ∃ y q' s', schedulerPickNextThread fuel .tmr s = .ok (y, s') ∧ Picked s q y q' ∧ s'.Queue q' ∧
      PickedThreads s q y s' := by
  obtain ⟨best, max, he, hres⟩ := pickLoop_spec s.topTcb uint16Max hq.seg hq.nodup hf
  rw [← hq.head_eq] at he
  cases hres with
  | none h =>
    obtain ⟨l, hl⟩ := hq.exists_last (List.ne_nil_of_length_pos (by omega))
    refine ⟨l, q, (s.pass q).setActivePriority l (u16 (((s.pass q).tcbs l).priority + 1)), ?_, .fallback l h hl, ?_, ?_⟩
    · unfold schedulerPickNextThread
      rw [he]
      show (do
        let best ← deref s.lastTcb
        return (best, (s.pass q).setActivePriority best (u16 (((s.pass q).tcbs best).priority + 1)))) = _
      rw [hl]
      rfl
    · exact (Sched.queue_setActivePriority ..).2 ((Sched.queue_pass q).2 hq)
    · refine pickedThreads_pass (fun _ => rfl) ?_
      rw [field_pass Tcb.decay_priority]
  | found xs y ys hqe hr hlt hxs hys =>
    subst hqe
    have hmax : saturatingDec16 (s.active y) ≠ uint16Max := by
      rw [saturatingDec16_eq]
      omega
    have hne : xs ++ ys ≠ [] := by
      intro hnil
      obtain ⟨rfl, rfl⟩ := List.append_eq_nil_iff.1 hnil
      simp at hlen
    obtain ⟨s', he', hq', ht⟩ := pick_found .tmr hq hne he hmax
    refine ⟨y, xs ++ ys ++ [y], s', he', .found xs y ys rfl hr hlt hxs ?_, hq', ht⟩
    intro z hz hzr
    rw [← saturatingDec16_eq]
    exact hys z hz hzr

/-- What a switch from `r` to `y` does to the threads. -/
structure Switched (s : Sched) (r y : TcbPtr) (s' : Sched) : Prop where
  queue : ∀ {q}, s'.Queue q ↔ s.Queue q
  priority : ∀ p, (s'.tcbs p).priority = (s.tcbs p).priority
  active : ∀ p, s'.active p = s.active p
  state : ∀ p, (s'.tcbs p).state = stateAfter s r y p
  running : s'.runningTcb = some y
  count : s'.threadCount = s.threadCount

/-- A switch writes the registers of the interrupted thread and the states, nothing else. -/
theorem switch_tcbs (s : Sched) (r y : TcbPtr) (frame : Mem) (p : TcbPtr) :
    (loadNext y (saveRunning r frame s)).tcbs p = { s.tcbs p with
      registers := if p = r then saveFrame (s.tcbs p).registers frame else (s.tcbs p).registers
      state := stateAfter s r y p } := by
  have hsave : (saveRunning r frame s).tcbs p = { s.tcbs p with
      registers := if p = r then saveFrame (s.tcbs p).registers frame else (s.tcbs p).registers
      state := if p = r ∧ r ≠ .dummy then .ready else (s.tcbs p).state } := by
    unfold saveRunning
    by_cases hd : r = .dummy
    · rw [if_neg (not_not.2 hd), Sched.tcbs_modify]
      by_cases hp : p = r
      · simp [hp, hd]
      · simp [hp]
    · rw [if_pos hd, Sched.setState, Sched.modify_modify, Sched.tcbs_modify]
      by_cases hp : p = r
      · simp [hp, hd]
      · simp [hp]
  have hload : (loadNext y (saveRunning r frame s)).tcbs p = ((saveRunning r frame s).setState y .running).tcbs p := rfl
  rw [hload, Sched.setState, Sched.tcbs_modify]
  unfold stateAfter
  by_cases hp : p = y
  · rw [if_pos hp, if_pos hp, ← hp, hsave]
  · rw [if_neg hp, if_neg hp, hsave]

theorem contextSwitch_spec {s : Sched} {r : TcbPtr} (y : TcbPtr) (frame : Mem) (hr : s.runningTcb = some r) :
    ∃ s', contextSwitch y frame s = .ok s' ∧ Switched s r y s' := by
  refine ⟨loadNext y (saveRunning r frame s), by rw [contextSwitch, hr]; rfl, ?_⟩
  have h := switch_tcbs s r y frame
  refine ⟨fun {q} => ?_, fun p => by rw [h], fun p => by rw [Sched.active, h], fun p => by rw [h], rfl, ?_⟩
  · have hn : (loadNext y (saveRunning r frame s)).nextOf = s.nextOf := funext fun p => by
      rw [Sched.nextOf, h]
      rfl
    have hp : (loadNext y (saveRunning r frame s)).prevOf = s.prevOf := funext fun p => by
      rw [Sched.prevOf, h]
      rfl
    unfold Sched.Queue
    rw [hn, hp]
    unfold saveRunning
    split_ifs <;> rfl
  · unfold saveRunning
    split_ifs <;> rfl

/-- What a timer tick does to the threads and the queue. -/
structure Ticked (s : Sched) (q : List TcbPtr) (r y : TcbPtr) (q' : List TcbPtr) (s' : Sched) : Prop where
  picked : Picked s q y q'
  queue : s'.Queue q'
  priority : ∀ p, (s'.tcbs p).priority = (s.tcbs p).priority
  active : ∀ p, s'.active p = activeAfter s q y p
  state : ∀ p, (s'.tcbs p).state = stateAfter s r y p
  running : s'.runningTcb = some y
  count : s'.threadCount = s.threadCount

/-- With at least two entries in the queue and enough rounds for it, a timer tick returns. -/
theorem schedule_spec {s : Sched} {q : List TcbPtr} {r : TcbPtr} {fuel : Nat} (frame : Mem) (hq : s.Queue q)
    (hlen : 2 ≤ q.length) (hr : s.runningTcb = some r) (hf : q.length ≤ fuel) :
    ∃ y q' s', schedule fuel frame .tmr s = .ok s' ∧ Ticked s q r y q' s' := by
  obtain ⟨y, q', s₁, he, hp, hq₁, ht⟩ := schedulerPickNextThread_spec hq hlen hf
  rw [← ht.running] at hr
  obtain ⟨s', hs', hc⟩ := contextSwitch_spec y frame hr
  refine ⟨y, q', s', ?_, hp, hc.queue.2 hq₁, fun p => (hc.priority p).trans (ht.priority p),
    fun p => (hc.active p).trans (ht.active p), fun p => ?_, hc.running, hc.count.trans ht.count⟩
  · unfold schedule
    rw [he]
    exact hs'
  · rw [hc.state p]
    unfold stateAfter
    split_ifs with hy
    · rfl
    · rfl
    · exact ht.state p hy

end Icarus.Processes

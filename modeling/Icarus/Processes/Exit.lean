/-
The end of a thread (thread.c): `thread_exit` takes the control block out of the queue without a look at its ends, so
that it is right for the threads between the first and the last and reads through `NULL` for these two.
-/
import Icarus.Processes.AddressSpaces
import Icarus.Processes.Process
import Icarus.Processes.RunQueue

namespace Icarus.Processes

open Icarus.Base Icarus.Interrupts

/-! ## Taking a thread out -/

/-- `thread_exit` up to the call of `free`. -/
def unlinkThread (thread : TcbPtr) (s : Sched) : Except Fault Sched := do
  let s := s.setState thread .terminated
  let next ← deref (s.nextOf thread)
  let s := s.setPrev next (s.prevOf thread)
  let prev ← deref (s.prevOf thread)
  return s.setNext prev (s.nextOf thread)

/-- `thread_exit`. -/
def threadExit (thread : TcbPtr) (k : Kernel) : Except Fault (Int × Kernel) := do
  let sched ← unlinkThread thread k.sched
  let k ← ifree thread.heapAddr tcbSize { k with sched }
  return (0, k)

section
variable {s s' : Sched} {q : List TcbPtr} {p : TcbPtr}

/-- An addition puts the new thread, its control block just written, behind the last one. -/
theorem schedulerAddThread_queue {f : Tcb → Tcb} (hq : s.Queue q) (hne : q ≠ []) (hp : p ∉ q)
    (h : schedulerAddThread p (s.modify p f) = .ok s') : s'.Queue (q ++ [p]) ∧ s'.runningTcb = s.runningTcb := by
  obtain ⟨s₁, he, hq₁, hs₁⟩ := schedulerAddThread_spec (f := f) hq hne hp
  rw [he] at h
  cases h
  exact ⟨hq₁, hs₁.running⟩

/-- The first thread of the queue has nothing before it, and the last one nothing behind it. -/
theorem unlinkThread_ends {xs ys : List TcbPtr} (hq : s.Queue (xs ++ p :: ys)) (h : xs = [] ∨ ys = []) :
    unlinkThread p s = .error (.badAddress 0) := by
  have hq' : (s.setState p .terminated).Queue (xs ++ p :: ys) := (Sched.queue_setState ..).2 hq
  obtain ⟨-, hprev, hnext, -⟩ := seg_append.1 hq'.seg
  dsimp only [unlinkThread]
  rw [hnext, hprev]
  rcases h with rfl | rfl
  · cases ys with
    | nil => rfl
    | cons b ys =>
      have hbp : p ≠ b := by
        rintro rfl
        exact (List.nodup_cons.1 hq.nodup).1 (List.mem_cons_self ..)
      show (deref (((s.setState p .terminated).setPrev b none).prevOf p) >>= _) = _
      rw [Sched.prevOf_setPrev, Function.update_of_ne hbp, hprev]
      rfl
  · rfl

/-- A thread with one before it and one behind it leaves the queue. -/
theorem unlinkThread_mid {xs ys : List TcbPtr} {a b : TcbPtr} (hq : s.Queue (xs ++ a :: p :: b :: ys)) :
    ∃ s', unlinkThread p s = .ok s' ∧ s'.Queue (xs ++ a :: b :: ys) ∧ s'.topTcb = s.topTcb ∧ s'.lastTcb = s.lastTcb ∧
      s'.runningTcb = s.runningTcb := by
  have hq' : (s.setState p .terminated).Queue (xs ++ a :: p :: b :: ys) := (Sched.queue_setState ..).2 hq
  obtain ⟨-, -, -, hprev, hnext, -⟩ := seg_append.1 hq'.seg
  have hpb : p ≠ b := by
    rintro rfl
    have := (List.nodup_append.1 hq.nodup).2.1
    simp at this
  refine ⟨((s.setState p .terminated).setPrev b (some a)).setNext a (some b), ?_, ?_, rfl, rfl, rfl⟩
  · dsimp only [unlinkThread]
    rw [hnext, hprev]
    show (deref (((s.setState p .terminated).setPrev b (some a)).prevOf p) >>= fun prev =>
      pure (((s.setState p .terminated).setPrev b (some a)).setNext prev
        (((s.setState p .terminated).setPrev b (some a)).nextOf p))) = _
    rw [Sched.prevOf_setPrev, Function.update_of_ne hpb, hprev, Sched.nextOf_setPrev, hnext]
    rfl
  · have h := hq'.unlinkMid
    rw [← Sched.nextOf_setNext, ← Sched.prevOf_setPrev] at h
    unfold Sched.Queue
    rw [Sched.nextOf_setNext, Sched.prevOf_setNext, Sched.nextOf_setPrev]
    rw [Sched.nextOf_setNext] at h
    exact h

end

/-! ## Runs with exits -/

/-- The states reached from `scheduler_init` of some thread when threads of the queue end, too. What `thread_exit`
returns is the state that its kernel holds afterwards. -/
inductive ExitReach : SchedRun → Prop
  | init {s : Sched} {t0 : TcbPtr} : s.threadCount = 0 → t0 ≠ .dummy → (s.tcbs t0).Fresh →
      ExitReach ⟨[t0], 0, schedulerInit t0 s⟩
  | step {r r' : SchedRun} : ExitReach r → SchedStep r r' → ExitReach r'
  | exit {r : SchedRun} {p : TcbPtr} {k k' : Kernel} {v : Int} : ExitReach r → p ∈ r.added → k.sched = r.sched →
      threadExit p k = .ok (v, k') → ExitReach ⟨r.added.erase p, r.ticks, k'.sched⟩

/-- The queue holds the dummy and the threads. -/
structure QueueOf (r : SchedRun) (q : List TcbPtr) : Prop where
  queue : r.sched.Queue q
  perm : q.Perm (.dummy :: r.added)
  two_le : 2 ≤ q.length
  running : r.sched.runningTcb ≠ none

/-- `thread_exit` of a thread dereferences no `NULL` link and takes it out of the queue: `s` is the queue it leaves. -/
structure ExitSound (k : Kernel) (p : TcbPtr) (s : Sched) : Prop where
  unlinks : unlinkThread p k.sched = .ok s
  leaves : ∀ v k', threadExit p k = .ok (v, k') → k'.sched = s
  queue : ∀ q, k.sched.Queue q → s.Queue (q.erase p)
  top : s.topTcb ≠ some p
  last : s.lastTcb ≠ some p

section
variable {r r' : SchedRun} {q : List TcbPtr} {p : TcbPtr} {k k' : Kernel} {s : Sched} {v : Int}

/-- `free` does not touch the queue. -/
theorem threadExit_sched (h : threadExit p k = .ok (v, k')) : unlinkThread p k.sched = .ok k'.sched := by
  obtain ⟨s, hs, h⟩ := bind_eq_ok.1 h
  obtain ⟨k₁, hfree, h⟩ := bind_eq_ok.1 h
  obtain ⟨heap, -, hfree⟩ := bind_eq_ok.1 hfree
  cases hfree
  cases h
  exact hs

theorem QueueOf.mem (h : QueueOf r q) (hp : p ∈ r.added) : p ∈ q := h.perm.mem_iff.2 (List.mem_cons_of_mem _ hp)

theorem QueueOf.ne_nil (h : QueueOf r q) : q ≠ [] := by
  refine List.ne_nil_of_length_pos ?_
  have := h.two_le
  omega

theorem QueueOf.step (h : QueueOf r q) (hs : SchedStep r r') : ∃ q', QueueOf r' q' := by
  cases hs with
  | add p t hp hnew _ _ he =>
    have hpq : p ∉ q := by
      rw [h.perm.mem_iff, List.mem_cons, not_or]
      exact ⟨hp, hnew⟩
    obtain ⟨hq, hrun⟩ := schedulerAddThread_queue h.queue h.ne_nil hpq he
    refine ⟨q ++ [p], hq, (List.perm_append_singleton p q).trans ((h.perm.cons p).trans (.swap ..)), ?_, hrun ▸ h.running⟩
    have := h.two_le
    rw [List.length_append]
    omega
  | tick fuel frame he =>
    obtain ⟨y, hy⟩ := Option.ne_none_iff_exists'.1 h.running
    obtain ⟨z, q', s, hs, ht⟩ := schedule_spec frame h.queue h.two_le hy (Nat.le_max_left _ fuel)
    rw [schedule_mono he (Nat.le_max_right ..)] at hs
    cases hs
    refine ⟨q', ht.queue, ht.picked.perm.trans h.perm, ?_, ?_⟩
    · rw [ht.picked.perm.length_eq]
      exact h.two_le
    · rw [ht.running]
      exact Option.some_ne_none z

/-- A thread of the queue leaves it exactly when it lies between two others. -/
theorem QueueOf.unlink (h : QueueOf r q) (hp : p ∈ r.added) :
    unlinkThread p r.sched = .error (.badAddress 0) ∧ (r.sched.topTcb = some p ∨ r.sched.lastTcb = some p) ∨
    ∃ s, unlinkThread p r.sched = .ok s ∧ s.Queue (q.erase p) ∧ 3 ≤ q.length ∧ s.topTcb = r.sched.topTcb ∧
      s.lastTcb = r.sched.lastTcb ∧ s.runningTcb = r.sched.runningTcb ∧ r.sched.topTcb ≠ some p ∧
      r.sched.lastTcb ≠ some p := by
  obtain ⟨xs, ys, rfl⟩ := List.append_of_mem (h.mem hp)
  have hnd := List.nodup_middle.1 h.queue.nodup
  have hpxs : p ∉ xs := fun hm => (List.nodup_cons.1 hnd).1 (List.mem_append_left _ hm)
  have hpys : p ∉ ys := fun hm => (List.nodup_cons.1 hnd).1 (List.mem_append_right _ hm)
  rcases List.eq_nil_or_concat xs with rfl | ⟨xs, a, rfl⟩
  · exact .inl ⟨unlinkThread_ends h.queue (.inl rfl), .inl h.queue.head_eq⟩
  rw [List.concat_eq_append] at *
  cases ys with
  | nil =>
    refine .inl ⟨unlinkThread_ends h.queue (.inr rfl), .inr ?_⟩
    rw [h.queue.last_eq]
    simp
  | cons b ys =>
    right
    have hq := h.queue
    rw [List.append_assoc, List.singleton_append] at hq
    obtain ⟨s, hs, hq', htop, hlast, hrun⟩ := unlinkThread_mid hq
    refine ⟨s, hs, ?_, ?_, htop, hlast, hrun, ?_, ?_⟩
    · rw [List.erase_append_right _ hpxs, List.erase_cons_head, List.append_assoc]
      exact hq'
    · simp only [List.length_append, List.length_cons, List.length_nil]
      omega
    · rw [h.queue.head_eq, List.head?_append_of_ne_nil _ (by simp)]
      exact fun he => hpxs (List.mem_of_head? he)
    · rw [h.queue.last_eq, List.getLast?_append, List.getLast?_cons_cons, List.getLast?_cons, Option.some_or,
        ← List.getLast?_cons]
      exact fun he => hpys (List.mem_of_getLast? he)

theorem queueOf_init {t0 : TcbPtr} (hc : s.threadCount = 0) (h0 : t0 ≠ .dummy) (ht : (s.tcbs t0).Fresh) :
    QueueOf ⟨[t0], 0, schedulerInit t0 s⟩ [t0, .dummy] := by
  have h := queueInv_init hc h0 ht
  refine ⟨h.queue, h.perm, h.two_le, ?_⟩
  rw [h.running]
  exact Option.some_ne_none _

end

theorem ExitReach.queueOf {r : SchedRun} (h : ExitReach r) : ∃ q, QueueOf r q := by
  induction h with
  | init hc h0 ht => exact ⟨_, queueOf_init hc h0 ht⟩
  | step _ hs ih =>
    obtain ⟨q, hq⟩ := ih
    exact hq.step hs
  | @exit r p k k' v _ hp hk he ih =>
    obtain ⟨q, hq⟩ := ih
    have hs := threadExit_sched he
    rw [hk] at hs
    rcases hq.unlink hp with ⟨herr, -⟩ | ⟨s, hs', hqs, hlen, -, -, hrun, -⟩
    · rw [herr] at hs
      cases hs
    · rw [hs', Except.ok.injEq] at hs
      subst hs
      have hpd : p ≠ .dummy := by
        rintro rfl
        exact (List.nodup_cons.1 (hq.perm.nodup_iff.1 hq.queue.nodup)).1 hp
      refine ⟨q.erase p, hqs, ?_, ?_, hrun ▸ hq.running⟩
      · have hperm := hq.perm.erase p
        rwa [List.erase_cons_tail (by simpa using hpd.symm)] at hperm
      · rw [List.length_erase_of_mem (hq.mem hp)]
        omega

/-! ## Exits -/

/-- `thread_exit` of a thread of the queue is sound exactly when the thread is neither the first nor the last one. -/
theorem exitSound_iff {r : SchedRun} {p : TcbPtr} {k : Kernel} (hreach : ExitReach r) (hk : k.sched = r.sched)
    (hp : p ∈ r.added) :
    (∃ s, ExitSound k p s) ↔ k.sched.topTcb ≠ some p ∧ k.sched.lastTcb ≠ some p := by
  obtain ⟨q, hq⟩ := hreach.queueOf
  constructor
  · rintro ⟨s, hs⟩
    have hu := hs.unlinks
    rw [hk] at hu ⊢
    rcases hq.unlink hp with ⟨herr, -⟩ | ⟨s', -, -, -, -, -, -, hne⟩
    · rw [herr] at hu
      cases hu
    · exact hne
  · rintro ⟨htop, hlast⟩
    rw [hk] at htop hlast
    rcases hq.unlink hp with ⟨-, hends⟩ | ⟨s, hs, hqs, -, htop', hlast', -⟩
    · exact absurd hends (not_or.2 ⟨htop, hlast⟩)
    · refine ⟨s, hk ▸ hs, fun v k' he => ?_, fun q' hq' => ?_, htop' ▸ htop, hlast' ▸ hlast⟩
      · have he' := threadExit_sched he
        rw [hk, hs, Except.ok.injEq] at he'
        exact he'.symm
      · rw [hk] at hq'
        have hsame : q' = q := hq'.unique hq.queue
        rwa [hsame]

theorem SchedReach.exitReach {r : SchedRun} (h : SchedReach r) : ExitReach r := by
  induction h with
  | init hc h0 ht => exact .init hc h0 ht
  | step _ hs ih => exact .step ih hs

/-- A third control block. -/
def thirdTcb : TcbPtr := tcbAt 0x3000 (by decide)

/-- A third thread behind the two. -/
def threeThreads : SchedRun where
  added := thirdTcb :: twoThreads.added
  ticks := 0
  sched :=
    let s := twoThreads.sched.modify thirdTcb fun _ => readyTcb 3
    { ((s.setNext secondTcb (some thirdTcb)).setPrev thirdTcb (some secondTcb)).setNext thirdTcb none with
      lastTcb := some thirdTcb
      threadCount := 3 }

theorem threeThreads_reach : ExitReach threeThreads :=
  .step twoThreads_reach.exitReach (.add thirdTcb (readyTcb 3) (by decide) (by decide) rfl ⟨by decide, rfl⟩ rfl)

theorem exitSound_iff_second : (∃ s, ExitSound { bootKernel with sched := threeThreads.sched } secondTcb s) ↔
    threeThreads.sched.topTcb ≠ some secondTcb ∧ threeThreads.sched.lastTcb ≠ some secondTcb :=
  exitSound_iff threeThreads_reach rfl (by decide)

/-- The thread that was added last has no successor to link back. -/
theorem exitSound_last_fails : ExitReach threeThreads ∧ thirdTcb ∈ threeThreads.added ∧
    ¬∃ s, ExitSound { bootKernel with sched := threeThreads.sched } thirdTcb s := by
  refine ⟨threeThreads_reach, by decide, ?_⟩
  rintro ⟨s, hs⟩
  have herr : unlinkThread thirdTcb threeThreads.sched = .error (.badAddress 0) := rfl
  have hok : unlinkThread thirdTcb threeThreads.sched = .ok s := hs.unlinks
  rw [herr] at hok
  cases hok

end Icarus.Processes

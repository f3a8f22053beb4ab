/-
The integrity of the run queue in every state that initialisation, additions and timer ticks can
reach: the queue is the dummy and the added threads, linked both ways; after the first tick exactly
the running thread is marked so; and when no thread can be picked the last one is the running one.
-/
import Icarus.Processes.Pick

namespace Icarus.Processes

open Icarus.Base Icarus.Interrupts

/-! ## Runs of the scheduler -/

/-- A scheduler with the threads that entered its queue so far and the ticks it took. -/
structure SchedRun where
  added : List TcbPtr
  ticks : Nat
  sched : Sched

/-- A control block as `create_process` supplies it. -/
structure Tcb.Fresh (t : Tcb) : Prop where
  priority : t.priority ≤ 65534
  active : t.activePriority = t.priority

/-- A ready thread enters the queue, its control block just written, or the timer ticks. -/
inductive SchedStep : SchedRun → SchedRun → Prop
  | add {r : SchedRun} {s : Sched} (p : TcbPtr) (t : Tcb) : p ≠ .dummy → p ∉ r.added → t.state = .ready →
      t.Fresh → schedulerAddThread p (r.sched.modify p fun _ => t) = .ok s →
      SchedStep r ⟨p :: r.added, r.ticks, s⟩
  | tick {r : SchedRun} {s : Sched} (fuel : Nat) (frame : Mem) : schedule fuel frame .tmr r.sched = .ok s →
      SchedStep r ⟨r.added, r.ticks + 1, s⟩

/-- The states reached from `scheduler_init` of some thread. -/
inductive SchedReach : SchedRun → Prop
  | init {s : Sched} {t0 : TcbPtr} : s.threadCount = 0 → t0 ≠ .dummy → (s.tcbs t0).Fresh →
      SchedReach ⟨[t0], 0, schedulerInit t0 s⟩
  | step {r r' : SchedRun} : SchedReach r → SchedStep r r' → SchedReach r'

/-! ## The invariant -/

/-- The queue `q` and the running entry `r` after `ticks` ticks. Before the first tick the dummy
counts as running. -/
structure QueueInv (added : List TcbPtr) (ticks : Nat) (s : Sched) (q : List TcbPtr) (r : TcbPtr) : Prop where
  queue : s.Queue q
  perm : q.Perm (.dummy :: added)
  nonempty : added ≠ []
  count : s.threadCount = added.length
  dummy : (s.tcbs .dummy).state = .denied
  priority : ∀ p ∈ added, (s.tcbs p).priority ≤ 65534
  active : ∀ p ∈ added, s.active p ≤ 65535
  running : s.runningTcb = some r
  real : if ticks = 0 then r = .dummy else r ∈ added
  state : ∀ p ∈ added, (s.tcbs p).state = if p = r then .running else .ready
  /-- the tail is the running thread, or there is something to pick -/
  tail : ticks ≠ 0 ∧ s.lastTcb = some r ∨ ∃ x ∈ added, s.Ready x ∧ s.active x < uint16Max

section
variable {added q q' : List TcbPtr} {ticks : Nat} {s s' : Sched} {r y : TcbPtr}

theorem QueueInv.nodup (h : QueueInv added ticks s q r) : (TcbPtr.dummy :: added).Nodup :=
  h.perm.nodup_iff.1 h.queue.nodup

theorem QueueInv.ne_dummy (h : QueueInv added ticks s q r) {p : TcbPtr} (hp : p ∈ added) : p ≠ .dummy := by
  rintro rfl
  exact (List.nodup_cons.1 h.nodup).1 hp

theorem QueueInv.mem (h : QueueInv added ticks s q r) {p : TcbPtr} (hp : p ∈ added) : p ∈ q :=
  h.perm.mem_iff.2 (List.mem_cons_of_mem _ hp)

/-- A ready entry of the queue is a thread, not the dummy. -/
theorem QueueInv.mem_added (h : QueueInv added ticks s q r) {p : TcbPtr} (hp : p ∈ q) (hr : s.Ready p) :
    p ∈ added := by
  rcases List.mem_cons.1 (h.perm.mem_iff.1 hp) with rfl | hp
  · rw [Sched.Ready, h.dummy] at hr
    cases hr
  · exact hp

theorem QueueInv.length_eq (h : QueueInv added ticks s q r) : q.length = added.length + 1 :=
  h.perm.length_eq

theorem QueueInv.two_le (h : QueueInv added ticks s q r) : 2 ≤ q.length := by
  have := List.length_pos_of_ne_nil h.nonempty
  rw [h.length_eq]
  omega

theorem QueueInv.ne_nil (h : QueueInv added ticks s q r) : q ≠ [] := by
  refine List.ne_nil_of_length_pos ?_
  rw [h.length_eq]
  exact Nat.succ_pos _

/-- When no ready thread can be picked, the last one is the running thread. -/
theorem QueueInv.fallback (h : QueueInv added ticks s q r) (hn : ∀ x ∈ q, s.Ready x → uint16Max ≤ s.active x) :
    ticks ≠ 0 ∧ s.lastTcb = some r := by
  rcases h.tail with h' | ⟨x, hx, hr, hlt⟩
  · exact h'
  · have := hn x (h.mem hx) hr
    omega

/-- The thread a tick dispatches is never the dummy. -/
theorem QueueInv.picked_mem (h : QueueInv added ticks s q r) (hp : Picked s q y q') : y ∈ added := by
  cases hp with
  | found xs _ ys he hr _ _ _ => exact h.mem_added (by simp [he]) hr
  | fallback _ hn hl =>
    obtain ⟨ht, hl'⟩ := h.fallback hn
    have hr := h.real
    rw [hl, Option.some.injEq] at hl'
    rwa [if_neg ht, ← hl'] at hr

theorem Picked.perm (h : Picked s q y q') : q'.Perm q := by
  cases h with
  | found xs _ ys he _ _ _ _ =>
    rw [he]
    exact (List.perm_append_singleton y (xs ++ ys)).trans List.perm_middle.symm
  | fallback _ _ _ => exact .refl q

theorem Picked.getLast (h : Picked s q y q') (hq : s.lastTcb = q.getLast?) : q'.getLast? = some y := by
  cases h with
  | found xs _ ys _ _ _ _ _ => simp
  | fallback _ _ hl => rw [← hq, hl]

theorem QueueInv.tick (h : QueueInv added ticks s q r) (ht : Ticked s q r y q' s') :
    QueueInv added (ticks + 1) s' q' y := by
  have hy : y ∈ added := h.picked_mem ht.picked
  refine ⟨ht.queue, ht.picked.perm.trans h.perm, h.nonempty, ht.count.trans h.count, ?_, fun p hp => ?_,
    fun p hp => ?_, ht.running, by rwa [if_neg (Nat.succ_ne_zero ticks)], fun p hp => ?_, ?_⟩
  · rw [ht.state, stateAfter, if_neg (h.ne_dummy hy).symm, if_neg (fun hd => hd.2 hd.1.symm), h.dummy]
  · rw [ht.priority]
    exact h.priority p hp
  · have hprio := h.priority y hy
    have hact := h.active p hp
    rw [ht.active, activeAfter, u16_of_lt (by omega)]
    split_ifs <;> omega
  · rw [ht.state, stateAfter]
    by_cases hpy : p = y
    · rw [if_pos hpy, if_pos hpy]
    · rw [if_neg hpy, if_neg hpy]
      split_ifs with hpr
      · rfl
      · rw [h.state p hp, if_neg]
        rintro rfl
        exact hpr ⟨rfl, h.ne_dummy hp⟩
  · left
    refine ⟨Nat.succ_ne_zero ticks, ?_⟩
    rw [ht.queue.last_eq]
    exact ht.picked.getLast h.queue.last_eq

/-- The addresses of distinct control blocks are distinct nonzero 64 bit words. -/
theorem length_lt_of_nodup (h : (TcbPtr.dummy :: added).Nodup) : added.length < 2 ^ 64 := by
  obtain ⟨hd, hn⟩ := List.nodup_cons.1 h
  let addr : TcbPtr → Nat
    | .dummy => 0
    | .thread a => a.1.toNat
  have hinj : ∀ p ∈ added, ∀ p' ∈ added, addr p = addr p' → p = p' := by
    intro p hp p' hp' he
    cases p with
    | dummy => exact absurd hp hd
    | thread a =>
      cases p' with
      | dummy => exact absurd hp' hd
      | thread a' => rw [Subtype.ext (BitVec.eq_of_toNat_eq he)]
  have hlt : (added.map addr).toFinset ⊆ Finset.Ioo 0 (2 ^ 64) := by
    intro n hn'
    obtain ⟨p, hp, rfl⟩ := List.mem_map.1 (List.mem_toFinset.1 hn')
    cases p with
    | dummy => exact absurd hp hd
    | thread a => exact Finset.mem_Ioo.2 ⟨Nat.pos_of_ne_zero fun h0 => a.2 (BitVec.eq_of_toNat_eq h0), a.1.isLt⟩
  have hcard := Finset.card_le_card hlt
  rw [List.toFinset_card_of_nodup (List.Nodup.map_on hinj hn), List.length_map, Nat.card_Ioo] at hcard
  omega

theorem schedulerAddThread_eq (p : TcbPtr) (s : Sched) :
    schedulerAddThread p s =
      (putLast p s).map fun r => { r.2 with threadCount := add64 s.threadCount 1 } := by
  unfold schedulerAddThread putLast
  cases s.lastTcb <;> rfl

/-- An addition writes links only. -/
theorem schedulerAddThread_core {p : TcbPtr} (h : schedulerAddThread p s = .ok s') (x : TcbPtr) :
    (s'.tcbs x).core = (s.tcbs x).core := by
  obtain ⟨l, -, he⟩ := bind_eq_ok.1 h
  cases he
  exact ((((Sched.SameThreads.refl s).setNext l (some p)).setPrev p (some l)).setNext p none).core x

/-- An addition puts the new thread, its control block just written, behind the last one. -/
theorem schedulerAddThread_spec {f : Tcb → Tcb} {p : TcbPtr} (hq : s.Queue q) (hne : q ≠ []) (hp : p ∉ q) :
    ∃ s₂, schedulerAddThread p (s.modify p f) = .ok { s₂ with threadCount := add64 s.threadCount 1 } ∧
      s₂.Queue (q ++ [p]) ∧ Sched.SameThreads (s.modify p f) s₂ := by
  have hq' : (s.modify p f).Queue q := by
    refine hq.congr fun x hx => ?_
    have hxp : x ≠ p := by
      rintro rfl
      exact hp hx
    simp only [Sched.nextOf, Sched.prevOf, s.tcbs_modify_of_ne hxp, and_self]
  obtain ⟨s₂, he, hq₂, hs₂⟩ := putLast_spec hq' hne hp
  exact ⟨s₂, by rw [schedulerAddThread_eq, he]; rfl, hq₂, hs₂⟩

/-- A new thread behind the last one; the others keep their state and their priorities. -/
theorem QueueInv.add {t : Tcb} {p : TcbPtr} (h : QueueInv added ticks s q r) (hp : p ≠ .dummy) (hnew : p ∉ added)
    (hr : t.state = .ready) (ht : t.Fresh) :
    ∃ s', schedulerAddThread p (s.modify p fun _ => t) = .ok s' ∧ QueueInv (p :: added) ticks s' (q ++ [p]) r ∧
      ∀ x ∈ added, (s'.tcbs x).core = (s.tcbs x).core := by
  have hpq : p ∉ q := fun hm => by
    rcases List.mem_cons.1 (h.perm.mem_iff.1 hm) with he | hm
    · exact hp he
    · exact hnew hm
  have hperm : (q ++ [p]).Perm (.dummy :: p :: added) :=
    (List.perm_append_singleton p q).trans ((h.perm.cons p).trans (.swap ..))
  obtain ⟨s₂, he₂, hq₂, hs₂⟩ := schedulerAddThread_spec (f := fun _ => t) h.queue h.ne_nil hpq
  have hcore : ∀ x, x ≠ p → (s₂.tcbs x).core = (s.tcbs x).core := fun x hx => by
    rw [hs₂.core x, s.tcbs_modify_of_ne hx]
  have hcore_p : (s₂.tcbs p).core = t.core := by rw [hs₂.core p, Sched.tcbs_modify_self]
  have hold : ∀ x ∈ added, x ≠ p := fun x hx he => hnew (he ▸ hx)
  have hact : ∀ x ∈ added, s₂.active x = s.active x := fun x hx =>
    (congrArg Tcb.activePriority (hcore x (hold x hx)) :)
  have hst : ∀ x ∈ added, (s₂.tcbs x).state = (s.tcbs x).state := fun x hx =>
    (congrArg Tcb.state (hcore x (hold x hx)) :)
  have hact_p : s₂.active p = t.priority := (congrArg Tcb.activePriority hcore_p).trans ht.active
  have hprio := ht.priority
  refine ⟨_, he₂, ⟨hq₂, hperm,
    List.cons_ne_nil _ _, ?_, ?_, fun x hx => ?_, fun x hx => ?_, hs₂.running.trans h.running, ?_, fun x hx => ?_, ?_⟩,
    fun x hx => hcore x (hold x hx)⟩
  · have hlt := length_lt_of_nodup (hperm.nodup_iff.1 hq₂.nodup)
    show add64 s.threadCount 1 = _
    rw [h.count, add64_of_lt hlt, List.length_cons]
  · exact (congrArg Tcb.state (hcore .dummy hp.symm)).trans h.dummy
  · rcases List.mem_cons.1 hx with rfl | hx
    · exact (congrArg Tcb.priority hcore_p).trans_le hprio
    · exact (congrArg Tcb.priority (hcore x (hold x hx))).trans_le (h.priority x hx)
  · show s₂.active x ≤ _
    rcases List.mem_cons.1 hx with rfl | hx
    · omega
    · rw [hact x hx]
      exact h.active x hx
  · have hreal := h.real
    split_ifs at hreal ⊢
    · exact hreal
    · exact List.mem_cons_of_mem _ hreal
  · show (s₂.tcbs x).state = _
    rcases List.mem_cons.1 hx with rfl | hx
    · have hxr : x ≠ r := by
        have hreal := h.real
        rintro rfl
        split_ifs at hreal
        · exact hp hreal
        · exact hnew hreal
      rw [if_neg hxr]
      exact (congrArg Tcb.state hcore_p).trans hr
    · rw [hst x hx]
      exact h.state x hx
  · right
    refine ⟨p, List.mem_cons_self .., (congrArg Tcb.state hcore_p).trans hr, ?_⟩
    show s₂.active p < uint16Max
    unfold uint16Max
    omega

/-- A control block outside the queue may be written at any time. -/
theorem QueueInv.write_other {p : TcbPtr} (h : QueueInv added ticks s q r) (hp : p ≠ .dummy) (hnew : p ∉ added)
    (f : Tcb → Tcb) : QueueInv added ticks (s.modify p f) q r := by
  have hne : ∀ x, x ∈ TcbPtr.dummy :: added → (s.modify p f).tcbs x = s.tcbs x := by
    intro x hx
    refine s.tcbs_modify_of_ne ?_ f
    rintro rfl
    rcases List.mem_cons.1 hx with he | hx
    · exact hp he
    · exact hnew hx
  have hold : ∀ x ∈ added, (s.modify p f).tcbs x = s.tcbs x := fun x hx => hne x (List.mem_cons_of_mem _ hx)
  refine ⟨?_, h.perm, h.nonempty, h.count, ?_, ?_, ?_, h.running, h.real, ?_, ?_⟩
  · exact h.queue.congr fun x hx => by simp only [Sched.nextOf, Sched.prevOf, hne x (h.perm.mem_iff.1 hx), and_self]
  · rw [hne _ (List.mem_cons_self ..)]
    exact h.dummy
  · intro x hx
    rw [hold x hx]
    exact h.priority x hx
  · intro x hx
    rw [Sched.active, hold x hx]
    exact h.active x hx
  · intro x hx
    rw [hold x hx]
    exact h.state x hx
  · refine h.tail.imp_right ?_
    rintro ⟨x, hx, hready, hlt⟩
    refine ⟨x, hx, ?_, ?_⟩
    · rw [Sched.Ready, hold x hx]
      exact hready
    · rw [Sched.active, hold x hx]
      exact hlt

theorem schedulerInit_tcbs_dummy {t0 : TcbPtr} (h0 : t0 ≠ .dummy) (s : Sched) :
    (schedulerInit t0 s).tcbs .dummy =
      { s.tcbs .dummy with state := .denied, priority := 0, next := none, prev := some t0 } := by
  simp [schedulerInit, Sched.setNext, Sched.setPrev, Sched.setState, Sched.modify, Function.update_of_ne h0.symm]

theorem schedulerInit_tcbs_self {t0 : TcbPtr} (h0 : t0 ≠ .dummy) (s : Sched) :
    (schedulerInit t0 s).tcbs t0 = { s.tcbs t0 with state := .ready, next := some .dummy, prev := none } := by
  simp [schedulerInit, Sched.setNext, Sched.setPrev, Sched.setState, Sched.modify, Function.update_of_ne h0]

/-- The first thread before the dummy, which counts as running. -/
theorem queueInv_init {t0 : TcbPtr} (hc : s.threadCount = 0) (h0 : t0 ≠ .dummy) (ht : (s.tcbs t0).Fresh) :
    QueueInv [t0] 0 (schedulerInit t0 s) [t0, .dummy] .dummy := by
  have hd := schedulerInit_tcbs_dummy h0 s
  have hs := schedulerInit_tcbs_self h0 s
  have hact := ht.active
  have hprio := ht.priority
  refine ⟨⟨⟨?_, ?_, ?_, ?_, trivial⟩, rfl, rfl, ?_⟩, .swap .., List.cons_ne_nil _ _, ?_, by rw [hd], ?_, ?_, rfl, rfl,
    ?_, Or.inr ⟨t0, List.mem_singleton_self t0, by rw [Sched.Ready, hs], ?_⟩⟩
  · rw [Sched.prevOf, hs]
  · rw [Sched.nextOf, hs]
    rfl
  · rw [Sched.prevOf, hd]
  · rw [Sched.nextOf, hd]
    rfl
  · simpa using h0
  · show add64 s.threadCount 1 = _
    rw [hc]
    rfl
  · intro p hp
    rw [List.mem_singleton.1 hp, hs]
    exact hprio
  · intro p hp
    rw [List.mem_singleton.1 hp, Sched.active, hs]
    show (s.tcbs t0).activePriority ≤ _
    omega
  · intro p hp
    rw [List.mem_singleton.1 hp, hs, if_neg h0]
  · rw [Sched.active, hs]
    show (s.tcbs t0).activePriority < uint16Max
    unfold uint16Max
    omega

/-- What a tick that returns does, however many rounds it was given. -/
theorem QueueInv.schedule_ticked {fuel : Nat} {frame : Mem} (h : QueueInv added ticks s q r)
    (hs : schedule fuel frame .tmr s = .ok s') : ∃ y q', Ticked s q r y q' s' := by
  obtain ⟨y, q', s₁, hs₁, ht⟩ := schedule_spec frame h.queue h.two_le h.running (Nat.le_max_left _ fuel)
  rw [schedule_mono hs (Nat.le_max_right ..)] at hs₁
  cases hs₁
  exact ⟨y, q', ht⟩

end

/-- In every state reached the invariant holds of some ordering of the threads. -/
theorem SchedReach.inv {r : SchedRun} (h : SchedReach r) :
    ∃ q y, QueueInv r.added r.ticks r.sched q y := by
  induction h with
  | init hc h0 ht => exact ⟨_, _, queueInv_init hc h0 ht⟩
  | step _ hs ih =>
    obtain ⟨q, y, hi⟩ := ih
    cases hs with
    | add p t hp hnew hr ht he =>
      obtain ⟨s', he', hi', -⟩ := hi.add hp hnew hr ht
      rw [he] at he'
      cases he'
      exact ⟨_, _, hi'⟩
    | tick fuel frame he =>
      obtain ⟨z, q', ht⟩ := hi.schedule_ticked he
      exact ⟨_, _, hi.tick ht⟩

/-- The queue of a state reached: following `next` from `top_tcb` visits every entry of `q`. -/
structure QueueIntact (r : SchedRun) (q : List TcbPtr) : Prop where
  visits : ∀ fuel, r.added.length < fuel → follow r.sched.nextOf fuel r.sched.topTcb = q
  once : q.Nodup
  entries : ∀ p, p ∈ q ↔ p = .dummy ∨ p ∈ r.added
  ends : q.getLast? = r.sched.lastTcb
  inverse : ∀ x y, x ∈ q ∧ r.sched.nextOf x = some y ↔ y ∈ q ∧ r.sched.prevOf y = some x
  top : ∃ t, r.sched.topTcb = some t ∧ r.sched.prevOf t = none
  distinct : r.added.Nodup ∧ .dummy ∉ r.added
  count : r.sched.threadCount = r.added.length
  running : 0 < r.ticks → ∃ y ∈ r.added, r.sched.runningTcb = some y ∧
    ∀ p ∈ q, (r.sched.tcbs p).state = .running ↔ p = y

/-- Nothing a tick or an addition does from here goes wrong: both return, so that no `NULL` is
dereferenced, the dummy is not dispatched, and the fallback of the pick is the running thread. -/
structure QueueServes (r : SchedRun) : Prop where
  ticks : ∀ fuel frame, r.added.length < fuel → ∃ s, schedule fuel frame .tmr r.sched = .ok s
  adds : ∀ p t, ∃ s, schedulerAddThread p (r.sched.modify p fun _ => t) = .ok s
  dispatched : ∀ fuel frame s, schedule fuel frame .tmr r.sched = .ok s → ∃ y ∈ r.added, s.runningTcb = some y
  fallback : ∀ fuel s best, pickLoop fuel r.sched.topTcb r.sched r.sched.topTcb uint16Max = .ok (s, best, uint16Max) →
    0 < r.ticks ∧ s.lastTcb = r.sched.runningTcb

section
variable {r : SchedRun} {q : List TcbPtr} {y : TcbPtr}

theorem QueueInv.intact (h : QueueInv r.added r.ticks r.sched q y) : QueueIntact r q := by
  obtain ⟨hd, hn⟩ := List.nodup_cons.1 h.nodup
  refine ⟨fun fuel hf => h.queue.follow_eq (by rw [h.length_eq]; exact hf), h.queue.nodup, fun p => ?_,
    h.queue.last_eq.symm, fun x y => h.queue.next_iff_prev, ?_, ⟨hn, hd⟩, h.count, fun ht => ?_⟩
  · rw [h.perm.mem_iff, List.mem_cons]
  · obtain ⟨t, ht⟩ := h.queue.exists_head h.ne_nil
    exact ⟨t, ht, h.queue.prev_head ht⟩
  · have hreal := h.real
    rw [if_neg (Nat.pos_iff_ne_zero.1 ht)] at hreal
    refine ⟨y, hreal, h.running, fun p hp => ?_⟩
    rcases List.mem_cons.1 (h.perm.mem_iff.1 hp) with rfl | hp
    · rw [h.dummy]
      constructor
      · intro he; cases he
      · intro he; exact absurd he (h.ne_dummy hreal).symm
    · rw [h.state p hp]
      split_ifs with hpy
      · simp [hpy]
      · simp [hpy]

theorem QueueInv.serves (h : QueueInv r.added r.ticks r.sched q y) : QueueServes r := by
  refine ⟨fun fuel frame hf => ?_, fun p t => ?_, fun fuel frame s hs => ?_, fun fuel s best hs => ?_⟩
  · have hlen : q.length ≤ fuel := h.length_eq.trans_le hf
    obtain ⟨_, _, s, hs, -⟩ := schedule_spec frame h.queue h.two_le h.running hlen
    exact ⟨s, hs⟩
  · obtain ⟨l, hl⟩ := h.queue.exists_last h.ne_nil
    exact ⟨_, by rw [schedulerAddThread, show (r.sched.modify p fun _ => t).lastTcb = some l from hl]; rfl⟩
  · obtain ⟨z, _, ht⟩ := h.schedule_ticked hs
    exact ⟨z, h.picked_mem ht.picked, ht.running⟩
  · obtain ⟨best', max', hs', hres⟩ :=
      pickLoop_spec r.sched.topTcb uint16Max h.queue.seg h.queue.nodup (Nat.le_max_left _ fuel)
    rw [← h.queue.head_eq, pickLoop_mono hs (Nat.le_max_right ..)] at hs'
    simp only [Except.ok.injEq, Prod.mk.injEq] at hs'
    obtain ⟨rfl, -, hmax⟩ := hs'
    cases hres with
    | none hn =>
      obtain ⟨ht, hl⟩ := h.fallback hn
      exact ⟨Nat.pos_of_ne_zero ht, hl.trans h.running.symm⟩
    | found xs z ys _ _ hlt _ _ =>
      rw [saturatingDec16_eq] at hmax
      omega

end

/-- After `scheduler_init`, additions and timer ticks in any order keep the queue intact and
serviceable. -/
theorem run_queue_integrity {r : SchedRun} (h : SchedReach r) : (∃ q, QueueIntact r q) ∧ QueueServes r := by
  obtain ⟨q, y, hi⟩ := h.inv
  exact ⟨⟨q, hi.intact⟩, hi.serves⟩

/-! ## A queue of two -/

/-- The address of a control block. -/
def tcbAt (a : BitVec 64) (h : a ≠ 0) : TcbPtr := .thread ⟨a, h⟩

/-- The scheduler before its initialisation. -/
def idle : Sched where
  tcbs := fun _ => Tcb.zero
  topTcb := none
  lastTcb := none
  runningTcb := none
  threadCount := 0
  cr3 := 0
  cpu := ⟨fun _ => 0, 0, 0, 0, 0, 0⟩

/-- The first of two control blocks. -/
def firstTcb : TcbPtr := tcbAt 0x1000 (by decide)

/-- The second one. -/
def secondTcb : TcbPtr := tcbAt 0x2000 (by decide)

/-- A ready thread of priority `n`. -/
def readyTcb (n : Nat) : Tcb := { Tcb.zero with state := .ready, priority := n, activePriority := n }

/-- The queue after `scheduler_init` of one thread and the addition of a second one. -/
def twoThreads : SchedRun where
  added := [secondTcb, firstTcb]
  ticks := 0
  sched :=
    let s := (schedulerInit firstTcb idle).modify secondTcb fun _ => readyTcb 3
    { ((s.setNext .dummy (some secondTcb)).setPrev secondTcb (some .dummy)).setNext secondTcb none with
      lastTcb := some secondTcb
      threadCount := 2 }

theorem twoThreads_reach : SchedReach twoThreads := by
  have h : SchedReach ⟨[firstTcb], 0, schedulerInit firstTcb idle⟩ :=
    .init rfl (by decide) ⟨by decide, rfl⟩
  exact .step h (.add secondTcb (readyTcb 3) (by decide) (by decide) rfl ⟨by decide, rfl⟩ rfl)

/-- The run after a timer tick. -/
def tickOnce (r : SchedRun) : SchedRun :=
  match schedule 4 (fun _ => 0) .tmr r.sched with
  | .ok s => ⟨r.added, r.ticks + 1, s⟩
  | .error _ => r

theorem tickOnce_reach {r : SchedRun} (h : SchedReach r) : SchedReach (tickOnce r) := by
  unfold tickOnce
  cases he : schedule 4 (fun _ => 0) .tmr r.sched with
  | ok s => exact .step h (.tick 4 _ he)
  | error _ => exact h

/-- The two threads after a turn each. -/
def twoTurns : SchedRun := tickOnce (tickOnce twoThreads)

theorem twoTurns_reach : SchedReach twoTurns := tickOnce_reach (tickOnce_reach twoThreads_reach)

theorem run_queue_integrity_twoTurns : twoTurns.ticks = 2 ∧ (∃ q, QueueIntact twoTurns q) ∧ QueueServes twoTurns :=
  ⟨rfl, run_queue_integrity twoTurns_reach⟩

end Icarus.Processes

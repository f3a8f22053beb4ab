/-
Runs that leave a trace, also when they do not return, and loops in them: with more fuel a run gets further along the
same trace, so that what a loop does over all fuels is what its rounds do at the places it comes to, and a loop ends
with nothing but allowed events exactly if the walk over its rounds ends with nothing but such.
-/
import Mathlib.Data.List.Infix
import Icarus.Base.Loop
import Icarus.Base.Records

namespace Icarus.Base

/-- What a call did: its events in order, and how it ended. -/
structure Run (ε α : Type) where
  events : List ε
  result : Except Fault α

namespace Run

section
variable {ε α β : Type}

/-- One call after the other. -/
def andThen (x : Run ε α) (f : α → Run ε β) : Run ε β :=
  match x.result with
  | .ok a => ⟨x.events ++ (f a).events, (f a).result⟩
  | .error e => ⟨x.events, .error e⟩

instance : Monad (Run ε) where
  pure a := ⟨[], .ok a⟩
  bind := andThen

/-- A call that does nothing but these events. -/
def emit (es : List ε) : Run ε Unit := ⟨es, .ok ()⟩

/-- A call that does not return. -/
def fault (f : Fault) : Run ε α := ⟨[], .error f⟩

/-- A call of which only the result matters. -/
def quiet (x : Except Fault α) : Run ε α := ⟨[], x⟩

variable {x y : Run ε α} {f g : α → Run ε β} {a : α} {e : ε}

theorem bind_of_ok (h : x.result = .ok a) : x >>= f = ⟨x.events ++ (f a).events, (f a).result⟩ := by
  show andThen x f = _
  unfold andThen
  rw [h]

theorem bind_of_error {e : Fault} (h : x.result = .error e) : x >>= f = ⟨x.events, .error e⟩ := by
  show andThen x f = _
  unfold andThen
  rw [h]

@[simp] theorem pure_events (a : α) : (pure a : Run ε α).events = [] := rfl

@[simp] theorem pure_result (a : α) : (pure a : Run ε α).result = .ok a := rfl

theorem mem_bind : e ∈ (x >>= f).events ↔ e ∈ x.events ∨ ∃ a, x.result = .ok a ∧ e ∈ (f a).events := by
  cases h : x.result with
  | ok a => rw [bind_of_ok h]; simp
  | error e => rw [bind_of_error h]; simp

theorem bind_result_eq_ok {b : β} : (x >>= f).result = .ok b ↔ ∃ a, x.result = .ok a ∧ (f a).result = .ok b := by
  cases h : x.result with
  | ok a => rw [bind_of_ok h]; simp
  | error e => rw [bind_of_error h]; simp

/-! ### Order -/

/-- Every event of the first kind comes behind one of the second kind. -/
def Preceded (P Q : ε → Prop) (es : List ε) : Prop := ∀ pre e post, es = pre ++ e :: post → P e → ∃ g ∈ pre, Q g

/-- Behind an event of the second kind everything may come. -/
theorem preceded_cons {P Q : ε → Prop} (hQ : Q e) (hP : ¬P e) (es : List ε) : Preceded P Q (e :: es) := by
  intro pre g post heq hg
  cases pre with
  | nil =>
    cases heq
    exact absurd hg hP
  | cons g' pre =>
    cases heq
    exact ⟨_, List.mem_cons_self, hQ⟩

theorem preceded_nil {P Q : ε → Prop} : Preceded P Q [] := by
  intro pre e post heq
  simp at heq

/-- As long as nothing of the second kind has happened, nothing of the first kind may. -/
theorem preceded_append {P Q : ε → Prop} {es fs : List ε} (hQ : ∀ e ∈ es, ¬Q e) :
    Preceded P Q (es ++ fs) ↔ (∀ e ∈ es, ¬P e) ∧ Preceded P Q fs := by
  constructor
  · intro h
    refine ⟨fun e he hP => ?_, fun pre e post heq hP => ?_⟩
    · obtain ⟨pre, post, rfl⟩ := List.append_of_mem he
      obtain ⟨g, hg, hQg⟩ := h pre e (post ++ fs) (by simp) hP
      exact hQ g (by simp [hg]) hQg
    · obtain ⟨g, hg, hQg⟩ := h (es ++ pre) e post (by rw [heq, List.append_assoc]) hP
      rcases List.mem_append.1 hg with hg | hg
      · exact absurd hQg (hQ g hg)
      · exact ⟨g, hg, hQg⟩
  · rintro ⟨hP, hfs⟩ pre e post heq he
    rcases List.append_eq_append_iff.1 heq with ⟨mid, rfl, hrest⟩ | ⟨mid, rfl, hrest⟩
    · obtain ⟨g, hg, hQg⟩ := hfs mid e post hrest he
      exact ⟨g, List.mem_append_right _ hg, hQg⟩
    · cases mid with
      | nil =>
        obtain ⟨g, hg, -⟩ := hfs [] e post hrest.symm he
        cases hg
      | cons g mid =>
        cases hrest
        exact absurd he (hP e (by simp))

theorem preceded_bind {P Q : ε → Prop} (hQ : ∀ e ∈ x.events, ¬Q e) :
    Preceded P Q (x >>= f).events ↔
      (∀ e ∈ x.events, ¬P e) ∧ ∀ a, x.result = .ok a → Preceded P Q (f a).events := by
  cases h : x.result with
  | ok a =>
    rw [bind_of_ok h, preceded_append hQ]
    simp
  | error e =>
    rw [bind_of_error h, ← List.append_nil x.events, preceded_append hQ]
    simp [preceded_nil]

/-! ### More fuel -/

/-- The second run is the first, or the first ran out of fuel on the way. -/
def Before (x y : Run ε α) : Prop := x = y ∨ x.result = .error .outOfFuel ∧ x.events <+: y.events

theorem Before.events_le (h : Before x y) : x.events <+: y.events := by
  rcases h with rfl | ⟨-, h⟩
  · exact List.prefix_rfl
  · exact h

/-- A run that returned had fuel enough. -/
theorem Before.eq_of_ok (h : Before x y) (ha : x.result = .ok a) : y = x := by
  rcases h with rfl | ⟨he, -⟩
  · rfl
  · rw [ha] at he
    cases he

theorem Before.bind (h : Before x y) (hf : ∀ a, Before (f a) (g a)) : Before (x >>= f) (y >>= g) := by
  rcases h with rfl | ⟨he, hpre⟩
  · cases hx : x.result with
    | ok a =>
      rw [bind_of_ok hx, bind_of_ok hx]
      rcases hf a with heq | ⟨he, hpre⟩
      · exact .inl (by rw [heq])
      · exact .inr ⟨he, (List.prefix_append_right_inj _).2 hpre⟩
    | error e =>
      rw [bind_of_error hx, bind_of_error hx]
      exact .inl rfl
  · rw [bind_of_error he]
    refine .inr ⟨rfl, hpre.trans ?_⟩
    cases hy : y.result with
    | ok a =>
      rw [bind_of_ok hy]
      exact List.prefix_append ..
    | error e =>
      rw [bind_of_error hy]

/-- A run that more fuel takes further, and does not change. -/
def Steady (x : Nat → Run ε α) : Prop := ∀ n n', n ≤ n' → Before (x n) (x n')

/-- With enough fuel the run does `e`. -/
def Does (x : Nat → Run ε α) (e : ε) : Prop := ∃ n, e ∈ (x n).events

/-- With enough fuel the run returns `a`. -/
def Returns (x : Nat → Run ε α) (a : α) : Prop := ∃ n, (x n).result = .ok a

/-- With enough fuel the run returns `a`, and all that it does is allowed. -/
def Ends (P : ε → Prop) (x : Nat → Run ε α) (a : α) : Prop := ∃ n, (x n).result = .ok a ∧ ∀ e ∈ (x n).events, P e

end

section
variable {ε α β : Type} {P : ε → Prop} {x : Nat → Run ε α} {f : Nat → α → Run ε β} {e : ε} {a a' : α} {b b' : β}

theorem Steady.const (x : Run ε α) : Steady fun _ => x := fun _ _ _ => .inl rfl

theorem Steady.bind (h : Steady x) (hf : ∀ a, Steady (f · a)) : Steady fun n => x n >>= f n :=
  fun n n' hle => (h n n' hle).bind fun a => hf a n n' hle

theorem Steady.eq_of_ok (h : Steady x) {n n' : Nat} (hle : n ≤ n') (ha : (x n).result = .ok a) : x n' = x n :=
  (h n n' hle).eq_of_ok ha

theorem Returns.unique (ha : Returns x a) (h : Steady x) (hb : Returns x a') : a = a' := by
  obtain ⟨n, hn⟩ := ha
  obtain ⟨k, hk⟩ := hb
  have heq : x n = x k := (h.eq_of_ok (Nat.le_max_left n k) hn).symm.trans (h.eq_of_ok (Nat.le_max_right n k) hk)
  rw [heq, hk] at hn
  exact (Except.ok.inj hn).symm

theorem Ends.returns (h : Ends P x a) : Returns x a := by
  obtain ⟨n, hn, -⟩ := h
  exact ⟨n, hn⟩

theorem ends_true : Ends (fun _ => True) x a ↔ Returns x a := by simp [Ends, Returns]

@[simp] theorem does_const {x : Run ε α} : Does (fun _ => x) e ↔ e ∈ x.events := exists_const _

@[simp] theorem ends_const {x : Run ε α} : Ends P (fun _ => x) a ↔ x.result = .ok a ∧ ∀ e ∈ x.events, P e :=
  exists_const _

@[simp] theorem ends_pure : Ends P (fun _ => (pure a : Run ε α)) a' ↔ a = a' := by simp

theorem does_bind (h : Steady x) (hf : ∀ a, Steady (f · a)) :
    Does (fun n => x n >>= f n) e ↔ Does x e ∨ ∃ a, Returns x a ∧ Does (f · a) e := by
  constructor
  · rintro ⟨n, he⟩
    rcases mem_bind.1 he with he | ⟨a, ha, he⟩
    · exact .inl ⟨n, he⟩
    · exact .inr ⟨a, ⟨n, ha⟩, n, he⟩
  · rintro (⟨n, he⟩ | ⟨a, ⟨k, hk⟩, n, he⟩)
    · exact ⟨n, mem_bind.2 (.inl he)⟩
    · refine ⟨max k n, mem_bind.2 (.inr ⟨a, ?_, ?_⟩)⟩
      · rw [h.eq_of_ok (Nat.le_max_left ..) hk, hk]
      · exact (hf a n _ (Nat.le_max_right ..)).events_le.subset he

theorem ends_bind (h : Steady x) (hf : ∀ a, Steady (f · a)) :
    Ends P (fun n => x n >>= f n) b ↔ ∃ a, Ends P x a ∧ Ends P (f · a) b := by
  constructor
  · rintro ⟨n, hn, he⟩
    obtain ⟨a, ha, hb⟩ := bind_result_eq_ok.1 hn
    dsimp only at he
    rw [bind_of_ok ha] at he
    exact ⟨a, ⟨n, ha, fun e hmem => he e (List.mem_append_left _ hmem)⟩,
      n, hb, fun e hmem => he e (List.mem_append_right _ hmem)⟩
  · rintro ⟨a, ⟨k, hk, hke⟩, n, hn, hne⟩
    refine ⟨max k n, ?_⟩
    have hx : x (max k n) = x k := h.eq_of_ok (Nat.le_max_left ..) hk
    have hfa : f (max k n) a = f n a := (hf a).eq_of_ok (Nat.le_max_right ..) hn
    dsimp only
    rw [bind_of_ok (hx ▸ hk), hx, hfa]
    exact ⟨hn, fun e he => (List.mem_append.1 he).elim (hke e) (hne e)⟩

/-- A call whose value is dropped. -/
theorem ends_bind_pure (h : Steady x) : Ends P (fun n => x n >>= fun _ => pure b) b' ↔ (∃ a, Ends P x a) ∧ b = b' := by
  rw [ends_bind h fun _ => .const _]
  simp

end

/-! ### Loops -/

section
variable {ε α : Type}

/-- Rounds from `a` on, until one finds nothing to go on to. -/
def loop (body : Nat → α → Run ε (Option α)) : Nat → α → Run ε α
  | 0, _ => fault .outOfFuel
  | fuel + 1, a => body fuel a >>= fun next =>
    match next with
    | none => pure a
    | some b => loop body fuel b

/-- The loop goes on from `a` to `b`. -/
def Steps (body : Nat → α → Run ε (Option α)) (a b : α) : Prop := Returns (body · a) (some b)

variable {P : ε → Prop} {body : Nat → α → Run ε (Option α)} {a b : α} {e : ε} {n : Nat}

theorem loop_of_none (h : (body n a).result = .ok none) : loop body (n + 1) a = ⟨(body n a).events, .ok a⟩ := by
  rw [loop, bind_of_ok h]
  exact congrArg (Run.mk · _) (List.append_nil _)

theorem loop_of_some (h : (body n a).result = .ok (some b)) :
    loop body (n + 1) a = ⟨(body n a).events ++ (loop body n b).events, (loop body n b).result⟩ := by
  rw [loop, bind_of_ok h]

/-- A loop of steady rounds is steady. -/
theorem loop_steady (hbody : ∀ a, Steady (body · a)) (a : α) : Steady (loop body · a) := by
  intro n
  induction n generalizing a with
  | zero => exact fun n' _ => .inr ⟨rfl, List.nil_prefix⟩
  | succ n ih =>
    intro n' hle
    obtain ⟨n', rfl⟩ : ∃ k, n' = k + 1 := ⟨n' - 1, by omega⟩
    dsimp only
    rw [loop, loop]
    refine (hbody a n n' (Nat.le_of_succ_le_succ hle)).bind fun next => ?_
    cases next with
    | none => exact .inl rfl
    | some b => exact ih b n' (Nat.le_of_succ_le_succ hle)

/-- What a loop does, its rounds do at the places it comes to. -/
theorem does_loop (hbody : ∀ a, Steady (body · a)) :
    Does (loop body · a) e ↔ ∃ b, Relation.ReflTransGen (Steps body) a b ∧ Does (body · b) e := by
  constructor
  · rintro ⟨n, he⟩
    induction n generalizing a with
    | zero => cases he
    | succ n ih =>
      dsimp only at he
      rw [loop] at he
      rcases mem_bind.1 he with he | ⟨next, hnext, he⟩
      · exact ⟨a, .refl, n, he⟩
      · cases next with
        | none => cases he
        | some b =>
          obtain ⟨c, hc, hemit⟩ := ih he
          exact ⟨c, .head ⟨n, hnext⟩ hc, hemit⟩
  · rintro ⟨b, hb, m, he⟩
    induction hb using Relation.ReflTransGen.head_induction_on with
    | refl =>
      refine ⟨m + 1, ?_⟩
      dsimp only
      rw [loop]
      exact mem_bind.2 (.inl he)
    | @head a c hstep _ ih =>
      obtain ⟨k, hk⟩ := hstep
      obtain ⟨n, hn⟩ := ih
      refine ⟨max k n + 1, ?_⟩
      have hround : body (max k n) a = body k a := (hbody a).eq_of_ok (Nat.le_max_left ..) hk
      dsimp only at hk ⊢
      rw [loop_of_some (hround.symm ▸ hk)]
      exact List.mem_append_right _ ((loop_steady hbody _ n _ (Nat.le_max_right ..)).events_le.subset hn)

theorem ends_loop_of_none (h : Ends P (body · a) none) : Ends P (loop body · a) a := by
  obtain ⟨n, hn, he⟩ := h
  refine ⟨n + 1, ?_⟩
  dsimp only
  rw [loop_of_none hn]
  exact ⟨rfl, he⟩

theorem ends_loop_of_some {c : α} (hbody : ∀ a, Steady (body · a)) (h : Ends P (body · a) (some b))
    (hloop : Ends P (loop body · b) c) : Ends P (loop body · a) c := by
  obtain ⟨k, hk, hke⟩ := h
  obtain ⟨n, hn, hne⟩ := hloop
  refine ⟨max k n + 1, ?_⟩
  have hround : body (max k n) a = body k a := (hbody a).eq_of_ok (Nat.le_max_left ..) hk
  have hrest : loop body (max k n) b = loop body n b := (loop_steady hbody b).eq_of_ok (Nat.le_max_right ..) hn
  dsimp only at hk ⊢
  rw [loop_of_some (hround.symm ▸ hk), hround, hrest]
  exact ⟨hn, fun e he => (List.mem_append.1 he).elim (hke e) (hne e)⟩

/-- A loop that leaves at its first place. -/
theorem ends_loop_last {c : α} (hbody : Steady (body · a)) (h : Returns (body · a) none) :
    Ends P (loop body · a) c ↔ Ends P (body · a) none ∧ a = c := by
  constructor
  · rintro ⟨n, hn, he⟩
    cases n with
    | zero => cases hn
    | succ n =>
      dsimp only at hn he
      rw [loop] at hn
      obtain ⟨next, hnext, hn⟩ := bind_result_eq_ok.1 hn
      obtain rfl : next = none := Returns.unique ⟨n, hnext⟩ hbody h
      rw [loop_of_none hnext] at he
      cases hn
      exact ⟨⟨n, hnext, he⟩, rfl⟩
  · rintro ⟨hends, rfl⟩
    exact ends_loop_of_none hends

/-- A loop that goes on. -/
theorem ends_loop_head {c : α} (hbody : ∀ a, Steady (body · a)) (h : Steps body a b) :
    Ends P (loop body · a) c ↔ Ends P (body · a) (some b) ∧ Ends P (loop body · b) c := by
  constructor
  · rintro ⟨n, hn, he⟩
    cases n with
    | zero => cases hn
    | succ n =>
      dsimp only at hn he
      rw [loop] at hn
      obtain ⟨next, hnext, hn⟩ := bind_result_eq_ok.1 hn
      obtain rfl : next = some b := Returns.unique ⟨n, hnext⟩ (hbody a) h
      rw [loop_of_some hnext] at he
      exact ⟨⟨n, hnext, fun e hmem => he e (List.mem_append_left _ hmem)⟩,
        n, hn, fun e hmem => he e (List.mem_append_right _ hmem)⟩
  · rintro ⟨hround, hloop⟩
    exact ends_loop_of_some hbody hround hloop

/-- A loop ends, with nothing but what is allowed, exactly if the walk over its rounds does. -/
theorem ends_loop (hbody : ∀ a, Steady (body · a)) :
    (∃ b, Ends P (loop body · a) b) ↔
      ∃ as, Walked (fun a => Ends P (body · a) none) (fun a b => Ends P (body · a) (some b)) a as := by
  constructor
  · rintro ⟨b, n, h, he⟩
    induction n generalizing a with
    | zero => cases h
    | succ n ih =>
      dsimp only at h he
      rw [loop] at h
      obtain ⟨next, hnext, h⟩ := bind_result_eq_ok.1 h
      cases next with
      | none =>
        rw [loop_of_none hnext] at he
        exact ⟨[], .leave ⟨n, hnext, he⟩⟩
      | some c =>
        rw [loop_of_some hnext] at he
        obtain ⟨as, has⟩ := ih h fun e hmem => he e (List.mem_append_right _ hmem)
        exact ⟨a :: as, .record ⟨n, hnext, fun e hmem => he e (List.mem_append_left _ hmem)⟩ has⟩
  · rintro ⟨as, h⟩
    induction h with
    | leave hleave => exact ⟨_, ends_loop_of_none hleave⟩
    | record hstep _ ih =>
      obtain ⟨b, hb⟩ := ih
      exact ⟨b, ends_loop_of_some hbody hstep hb⟩

/-- A loop keeps an invariant, and ends if every round uses up some of what is left. -/
theorem ends_loop_of_inv (hbody : ∀ a, Steady (body · a)) (Inv : α → Prop) (left : α → Nat)
    (hround : ∀ a, Inv a → Ends P (body · a) none ∨ ∃ b, Ends P (body · a) (some b) ∧ Inv b ∧ left b < left a)
    (a : α) (ha : Inv a) : ∃ b, Ends P (loop body · a) b ∧ Inv b ∧ Ends P (body · b) none := by
  induction hn : left a using Nat.strong_induction_on generalizing a with
  | _ n ih =>
    rcases hround a ha with hnone | ⟨c, hc, hinv, hlt⟩
    · exact ⟨a, ends_loop_of_none hnone, ha, hnone⟩
    · obtain ⟨b, hb, hinv', hleave⟩ := ih (left c) (hn ▸ hlt) c hinv rfl
      exact ⟨b, ends_loop_of_some hbody hc hb, hinv', hleave⟩

/-- Where a loop returns, what its rounds keep holds. -/
theorem loop_inv {Inv : α → Prop} (hround : ∀ a b, Inv a → Steps body a b → Inv b) (ha : Inv a)
    (h : Returns (loop body · a) b) : Inv b ∧ Returns (body · b) none := by
  obtain ⟨n, hn⟩ := h
  induction n generalizing a with
  | zero => cases hn
  | succ n ih =>
    dsimp only at hn
    rw [loop] at hn
    obtain ⟨next, hnext, hn⟩ := bind_result_eq_ok.1 hn
    cases next with
    | none =>
      cases hn
      exact ⟨ha, n, hnext⟩
    | some c => exact ih (hround _ _ ha ⟨n, hnext⟩) hn

/-- The same, with something that is to hold wherever the loop comes to. -/
theorem ends_loop_and (hbody : ∀ a, Steady (body · a)) {Q : α → Prop} :
    ((∃ b, Ends P (loop body · a) b) ∧ ∀ b, Relation.ReflTransGen (Steps body) a b → Q b) ↔
      ∃ as, Walked (fun a => Ends P (body · a) none ∧ Q a) (fun a b => Ends P (body · a) (some b) ∧ Q a) a as := by
  rw [ends_loop hbody]
  refine exists_walked_and_iff (fun _ _ h => h.returns) (fun a _ _ h₁ h₂ => ?_) fun a _ h₁ h₂ => ?_
  · exact Option.some.inj (h₁.unique (hbody a) h₂)
  · cases h₁.returns.unique (hbody a) h₂

end

end Run

end Icarus.Base

/-
`parse` beside `tar_count_files`: it looks for the end of the archive at the character of the name that the number of the
entry says, stores the header of every entry, and steps on by a number of 32 bits.
-/
import Icarus.Files.TarCount

namespace Icarus.Files

open Icarus.Base

/-- Where the headers lie that `tar_count_files` counts. -/
def countedHeaders : (es : List TarEntry) → (a : Nat) → List Nat
  | [], _ => []
  | e :: es, a =>
    if e.regular then a :: countedHeaders es (a + e.encode.length) else countedHeaders es (a + e.encode.length)

/-- `parse` stores the headers that are counted, in their order and nothing else, and returns how many there are. -/
structure WalksAgree (read : Reads) (start length : Nat) (es : List TarEntry) : Prop where
  count : tarCountFiles read start length = .ok (countedHeaders es start).length
  stored : ∃ fuel, parse read fuel start =
    .ok ((countedHeaders es start).length, fun i => (countedHeaders es start)[i]?)

/-! ## The walk of `parse` -/

/-- The headers that `parse` comes to from the one with number `i` at `a` on, up to its end. -/
inductive Visits (read : Reads) : (i a : Nat) → List Nat → Prop
  | stop {i a : Nat} : read (add64 a i) = .ok 0 → Visits read i a []
  | step {i a c : Nat} {size : BitVec 32} {as : List Nat} : read (add64 a i) = .ok c → c ≠ 0 →
    getsize read (add64 a (offsetOf tarHeader 4)) = .ok size → Visits read (u32 (i + 1)) (parseStep a size) as →
      Visits read i a (a :: as)

/-- The number behind them. -/
def numberAfter : (i : Nat) → List Nat → Nat
  | i, [] => i
  | i, _ :: as => numberAfter (u32 (i + 1)) as

/-- What is stored then. -/
def storeAll : (i : Nat) → List Nat → (Nat → Option Nat) → Nat → Option Nat
  | _, [], headers => headers
  | i, a :: as, headers => storeAll (u32 (i + 1)) as (Function.update headers i (some a))

section
variable {read : Reads} {i j a r : Nat} {as : List Nat} {headers headers' : Nat → Option Nat}

/-- The loop comes back with the headers it comes to. -/
theorem parseLoop_eq_ok : (∃ fuel, parseLoop read fuel i a headers = .ok (r, headers')) ↔
    ∃ as, Visits read i a as ∧ r = numberAfter i as ∧ headers' = storeAll i as headers := by
  constructor
  · rintro ⟨fuel, h⟩
    induction fuel generalizing i a headers with
    | zero => cases h
    | succ fuel ih =>
      obtain ⟨c, hc, h⟩ := bind_eq_ok.1 h
      rw [show offsetOf tarHeader 0 + i = i from Nat.zero_add i] at hc
      split_ifs at h with hstop
      · cases h
        exact ⟨[], .stop (hstop ▸ hc), rfl, rfl⟩
      · obtain ⟨size, hsize, h⟩ := bind_eq_ok.1 h
        obtain ⟨as, hvisits, hr, hheaders⟩ := ih h
        exact ⟨a :: as, .step hc hstop hsize hvisits, hr, hheaders⟩
  · rintro ⟨as, hvisits, rfl, rfl⟩
    induction hvisits generalizing headers with
    | @stop i a hc =>
      rw [← Nat.zero_add i] at hc
      exact ⟨1, bind_eq_ok.2 ⟨0, hc, rfl⟩⟩
    | @step i a c size as hc hne hsize hvisits ih =>
      rw [← Nat.zero_add i] at hc
      obtain ⟨fuel, hfuel⟩ := @ih (Function.update headers i (some a))
      exact ⟨fuel + 1, bind_eq_ok.2 ⟨c, hc, (if_neg hne).trans (bind_eq_ok.2 ⟨size, hsize, hfuel⟩)⟩⟩

/-- Without wrapping around, the numbers go up one by one, and each header is found under its own. -/
theorem storeAll_eq (h : i + as.length < 2 ^ 32) : numberAfter i as = i + as.length ∧
    ∀ j, storeAll i as headers j = if i ≤ j ∧ j < i + as.length then as[j - i]? else headers j := by
  induction as generalizing i headers with
  | nil => exact ⟨rfl, fun j => (if_neg (by simp)).symm⟩
  | cons a as ih =>
    rw [List.length_cons] at h
    have hnext : u32 (i + 1) = i + 1 := u32_of_lt (by omega)
    obtain ⟨h1, h2⟩ := @ih (i + 1) (Function.update headers i (some a)) (by omega)
    unfold numberAfter storeAll
    rw [hnext, List.length_cons]
    refine ⟨by omega, fun j => ?_⟩
    rw [h2]
    by_cases hj : j = i
    · subst hj
      rw [if_neg (by omega), if_pos (by omega), Function.update_self, Nat.sub_self]
      rfl
    · by_cases hin : i + 1 ≤ j ∧ j < i + 1 + as.length
      · rw [if_pos hin, if_pos (by omega), show j - i = j - (i + 1) + 1 by omega, List.getElem?_cons_succ]
      · rw [if_neg hin, if_neg (by omega), Function.update_of_ne hj]

/-- What has been stored stays stored. -/
theorem storeAll_ne_none (h : headers j ≠ none) : storeAll i as headers j ≠ none := by
  induction as generalizing i headers with
  | nil => exact h
  | cons a as ih =>
    refine ih ?_
    by_cases hj : j = i
    · simp [hj]
    · rwa [Function.update_of_ne hj]

/-- Every number that is come to is stored under. -/
theorem storeAll_filled (hi : i ≤ j) (hj : j < 2 ^ 32) (h : j < i + as.length) : storeAll i as headers j ≠ none := by
  induction as generalizing i headers with
  | nil => exact absurd h (by simpa using hi)
  | cons a as ih =>
    unfold storeAll
    by_cases hij : j = i
    · exact storeAll_ne_none (by simp [hij])
    · rw [u32_of_lt (by omega)]
      exact ih (by omega) (by rw [List.length_cons] at h; omega)

theorem numberAfter_lt (h : i < 2 ^ 32) : numberAfter i as < 2 ^ 32 := by
  induction as generalizing i with
  | nil => exact h
  | cons a as ih => exact ih (Nat.mod_lt _ (by decide))

/-- `parse` returns these headers just when it comes to them, and there are fewer than 2 ^ 32. -/
theorem parse_eq_ok : (∃ fuel, parse read fuel a = .ok (as.length, fun i => as[i]?)) ↔
    Visits read 0 a as ∧ as.length < 2 ^ 32 := by
  unfold parse
  rw [parseLoop_eq_ok]
  constructor
  · rintro ⟨bs, hvisits, hlen, hstored⟩
    have hlt : as.length < 2 ^ 32 := hlen ▸ numberAfter_lt (by decide)
    by_cases hwrap : bs.length < 2 ^ 32
    · obtain ⟨hnumber, hget⟩ := @storeAll_eq 0 bs (fun _ => none) (by omega)
      have heq : as = bs := by
        refine List.ext_getElem? fun j => ?_
        rw [congrFun hstored j, hget]
        split_ifs with hj
        · rfl
        · exact (List.getElem?_eq_none (by omega)).symm
      exact ⟨heq ▸ hvisits, hlt⟩
    · -- the numbers have wrapped around: no place is left
      have hfilled : storeAll 0 bs (fun _ => none) as.length ≠ none := storeAll_filled (Nat.zero_le _) hlt (by omega)
      rw [← congrFun hstored] at hfilled
      simp at hfilled
  · rintro ⟨hvisits, hlt⟩
    obtain ⟨hnumber, hget⟩ := @storeAll_eq 0 as (fun _ => none) (by omega)
    refine ⟨as, hvisits, by omega, funext fun j => ?_⟩
    rw [hget]
    split_ifs with hj
    · rfl
    · exact List.getElem?_eq_none (by omega)

end

/-! ## Staying in step -/

/-- Where `parse` is behind entries that it has gone through. -/
def parseAddress (a : Nat) (es : List TarEntry) : Nat := es.foldl (fun a e => parseStep a (BitVec.ofNat 32 e.size)) a

/-- The regular files `regs` come first: each, the first of them with number `i` at `a`, has a character in the place of
its number, all but the last leave room for the step to be computed in 32 bits, and the number behind them meets a zero. -/
structure InStep (read : Reads) (i a : Nat) (regs rest : List TarEntry) : Prop where
  regular : ∀ e ∈ regs, e.regular = true
  others : ∀ e ∈ rest, e.regular = false
  names : ∀ j < regs.length, ∃ c, c ≠ 0 ∧ read (add64 (a + (encodeEntries (regs.take j)).length) (i + j)) = .ok c
  sizes : ∀ e ∈ regs.dropLast, e.size + 512 < 2 ^ 32
  stop : read (add64 (parseAddress a regs) (i + regs.length)) = .ok 0

section
variable {read : Reads} {i a : Nat} {e : TarEntry} {es regs rest : List TarEntry}

/-- The step leads behind the data just when it can be computed in 32 bits, and never further. -/
theorem parseStep_spec (hsize : e.size < 2 ^ 32) (ha : a + e.encode.length < 2 ^ 64) :
    (e.size + 512 < 2 ^ 32 → parseStep a (BitVec.ofNat 32 e.size) = a + e.encode.length) ∧
      (¬e.size + 512 < 2 ^ 32 → parseStep a (BitVec.ofNat 32 e.size) < a + e.encode.length) := by
  rw [length_encode] at ha ⊢
  have hdiv : ((BitVec.ofNat 32 e.size / 512 + 1) * 512).toNat = (e.size / 512 + 1) % 2 ^ 32 * 512 % 2 ^ 32 := by
    rw [BitVec.toNat_mul, BitVec.toNat_add, BitVec.toNat_udiv, BitVec.toNat_ofNat, Nat.mod_eq_of_lt hsize]
    rfl
  have hmod : BitVec.ofNat 32 e.size % 512 ≠ 0 ↔ e.size % 512 ≠ 0 := by
    rw [ne_eq, ne_eq, ← BitVec.toNat_inj, BitVec.toNat_umod, BitVec.toNat_ofNat, Nat.mod_eq_of_lt hsize]
    rfl
  unfold paddedSize at ha ⊢
  generalize hstep : (e.size / 512 + 1) % 2 ^ 32 * 512 % 2 ^ 32 = step at hdiv
  have hfirst : add64 a step = a + step := add64_of_lt (by omega)
  unfold parseStep
  dsimp only
  rw [hdiv, hfirst]
  constructor
  · intro hlt
    split_ifs with h
    · rw [hmod] at h
      rw [add64_of_lt (by omega)]
      omega
    · rw [hmod, not_not] at h
      omega
  · intro hge
    split_ifs with h
    · rw [add64_of_lt (by omega)]
      omega
    · omega

theorem le_of_mem_countedHeaders {b : Nat} (h : b ∈ countedHeaders es a) : a ≤ b := by
  induction es generalizing a with
  | nil => cases h
  | cons e es ih =>
    unfold countedHeaders at h
    split_ifs at h
    · rcases List.mem_cons.1 h with rfl | h
      · exact le_rfl
      · exact (Nat.le_add_right ..).trans (ih h)
    · exact (Nat.le_add_right ..).trans (ih h)

theorem countedHeaders_eq_nil : countedHeaders es a = [] ↔ ∀ e ∈ es, e.regular = false := by
  induction es generalizing a with
  | nil => simp [countedHeaders]
  | cons e es ih =>
    unfold countedHeaders
    cases he : e.regular with
    | true => simp [he]
    | false => simp [he, ih]

theorem length_countedHeaders : (countedHeaders es a).length = es.countP TarEntry.regular := by
  induction es generalizing a with
  | nil => rfl
  | cons e es ih =>
    unfold countedHeaders
    rw [List.countP_cons]
    split_ifs
    · rw [List.length_cons, ih]
    · exact ih

/-- One entry more in front. -/
theorem inStep_cons (hsize : e.size < 2 ^ 32) (ha : a + e.encode.length < 2 ^ 64) :
    InStep read i a (e :: regs) rest ↔ e.regular = true ∧ (∃ c, c ≠ 0 ∧ read (add64 a i) = .ok c) ∧
      if regs = [] then (∀ e ∈ rest, e.regular = false) ∧
        read (add64 (parseStep a (BitVec.ofNat 32 e.size)) (i + 1)) = .ok 0
      else e.size + 512 < 2 ^ 32 ∧ InStep read (i + 1) (a + e.encode.length) regs rest := by
  have htake : ∀ j, a + (encodeEntries ((e :: regs).take (j + 1))).length =
      a + e.encode.length + (encodeEntries (regs.take j)).length := by
    intro j
    simp [encodeEntries, Nat.add_assoc]
  split_ifs with hregs
  · subst hregs
    constructor
    · intro h
      exact ⟨h.regular e (List.mem_cons_self ..), h.names 0 (by simp), h.others, h.stop⟩
    · rintro ⟨hreg, hname, hothers, hstop⟩
      refine ⟨by simpa using hreg, hothers, fun j hj => ?_, by simp, hstop⟩
      obtain rfl : j = 0 := by simpa using hj
      exact hname
  · have hdrop : (e :: regs).dropLast = e :: regs.dropLast := List.dropLast_cons_of_ne_nil hregs
    have hlen : ∀ j, i + (j + 1) = i + 1 + j := fun j => by omega
    constructor
    · intro h
      have hroom := h.sizes e (by rw [hdrop]; exact List.mem_cons_self ..)
      have hstep := (parseStep_spec hsize ha).1 hroom
      refine ⟨h.regular e (List.mem_cons_self ..), h.names 0 (by simp), hroom, ?_, h.others, fun j hj => ?_, ?_, ?_⟩
      · exact fun e' he' => h.regular e' (List.mem_cons_of_mem _ he')
      · have hname := h.names (j + 1) (by simpa using hj)
        rwa [htake, hlen] at hname
      · exact fun e' he' => h.sizes e' (by rw [hdrop]; exact List.mem_cons_of_mem _ he')
      · have hstop := h.stop
        rw [List.length_cons, hlen] at hstop
        rw [← hstep]
        exact hstop
    · rintro ⟨hreg, hname, hroom, h⟩
      have hstep := (parseStep_spec hsize ha).1 hroom
      refine ⟨List.forall_mem_cons.2 ⟨hreg, h.regular⟩, h.others, fun j hj => ?_, ?_, ?_⟩
      · cases j with
        | zero => exact hname
        | succ j =>
          rw [htake, hlen]
          exact h.names j (by simpa using hj)
      · rw [hdrop]
        exact List.forall_mem_cons.2 ⟨hroom, h.sizes⟩
      · have hstop := h.stop
        rw [← hstep] at hstop
        rw [List.length_cons, hlen]
        exact hstop

/-- The regular files in front may be extended by a regular file in front of them only. -/
theorem exists_inStep_of_regular (he : e.regular = true) :
    (∃ regs rest, e :: es = regs ++ rest ∧ InStep read i a regs rest) ↔
      ∃ regs rest, es = regs ++ rest ∧ InStep read i a (e :: regs) rest := by
  constructor
  · rintro ⟨regs, rest, hes, h⟩
    rcases List.cons_eq_append_iff.1 hes with ⟨-, rfl⟩ | ⟨regs', rfl, hes'⟩
    · have hother := h.others e (List.mem_cons_self ..)
      rw [he] at hother
      cases hother
    · exact ⟨regs', rest, hes', h⟩
  · rintro ⟨regs, rest, rfl, h⟩
    exact ⟨e :: regs, rest, rfl, h⟩

/-- Behind an entry of another kind there are no regular files. -/
theorem exists_inStep_of_other (he : e.regular = false) :
    (∃ regs rest, e :: es = regs ++ rest ∧ InStep read i a regs rest) ↔
      (∀ e' ∈ es, e'.regular = false) ∧ read (add64 a i) = .ok 0 := by
  constructor
  · rintro ⟨regs, rest, hes, h⟩
    rcases List.cons_eq_append_iff.1 hes with ⟨rfl, rfl⟩ | ⟨regs', rfl, -⟩
    · exact ⟨fun e' he' => h.others e' (List.mem_cons_of_mem _ he'), h.stop⟩
    · have hreg := h.regular e (List.mem_cons_self ..)
      rw [he] at hreg
      cases hreg
  · rintro ⟨hothers, hstop⟩
    exact ⟨[], e :: es, rfl, by simp, List.forall_mem_cons.2 ⟨he, hothers⟩, by simp, by simp, hstop⟩

theorem visits_nil : Visits read i a [] ↔ read (add64 a i) = .ok 0 :=
  ⟨fun h => by cases h; assumption, .stop⟩

theorem Visits.of_cons {b : Nat} {as : List Nat} (h : Visits read i a (b :: as)) : a = b ∧
    (∃ c, c ≠ 0 ∧ read (add64 a i) = .ok c) ∧ ∃ size, Visits read (u32 (i + 1)) (parseStep a size) as := by
  cases h with
  | step hc hne _ hvisits => exact ⟨rfl, ⟨_, hne, hc⟩, _, hvisits⟩

theorem visits_cons {b : Nat} {as : List Nat} (hheader : HeaderAt read a e) (ha : a + 512 < 2 ^ 64)
    (hi : i + 1 < 2 ^ 32) : Visits read i a (b :: as) ↔ a = b ∧ (∃ c, c ≠ 0 ∧ read (add64 a i) = .ok c) ∧
      Visits read (i + 1) (parseStep a (BitVec.ofNat 32 e.size)) as := by
  have hget := hheader.getsize ha
  have hnext : u32 (i + 1) = i + 1 := u32_of_lt hi
  constructor
  · intro h
    cases h with
    | @step _ _ c size _ hc hne hsize hvisits =>
      obtain rfl : _ = size := Except.ok.inj (hget.symm.trans hsize)
      rw [hnext] at hvisits
      exact ⟨rfl, ⟨c, hne, hc⟩, hvisits⟩
  · rintro ⟨rfl, ⟨c, hne, hc⟩, hvisits⟩
    rw [← hnext] at hvisits
    exact .step hc hne hget hvisits

/-- From a regular file `parse` comes to the counted headers just when its name has a character in the place of its
number and, where more are counted behind it, the step leads there; where none is, it has to meet a zero. -/
theorem visits_regular (hheader : HeaderAt read a e) (hsize : e.size < 2 ^ 32) (ha : a + e.encode.length < 2 ^ 64)
    (hi : i + 1 < 2 ^ 32) : Visits read i a (a :: countedHeaders es (a + e.encode.length)) ↔
      (∃ c, c ≠ 0 ∧ read (add64 a i) = .ok c) ∧
        if countedHeaders es (a + e.encode.length) = [] then
          read (add64 (parseStep a (BitVec.ofNat 32 e.size)) (i + 1)) = .ok 0
        else e.size + 512 < 2 ^ 32 ∧ Visits read (i + 1) (a + e.encode.length)
          (countedHeaders es (a + e.encode.length)) := by
  have hlen := @length_encode e
  have hspec := @parseStep_spec a e hsize ha
  rw [visits_cons hheader (by omega) hi, and_iff_right rfl]
  refine and_congr_right fun _ => ?_
  split_ifs with hes
  · rw [hes, visits_nil]
  · constructor
    · intro hvisits
      -- the next header that is counted lies behind this entry, so the step has led there
      have hroom : e.size + 512 < 2 ^ 32 := by
        by_contra hroom
        have hlt := hspec.2 hroom
        obtain ⟨b, bs, hbs⟩ := List.exists_cons_of_ne_nil hes
        have hge := @le_of_mem_countedHeaders (a + e.encode.length) es b (by rw [hbs]; exact List.mem_cons_self ..)
        rw [hbs] at hvisits
        have := hvisits.of_cons.1
        omega
      rw [hspec.1 hroom] at hvisits
      exact ⟨hroom, hvisits⟩
    · rintro ⟨hroom, hvisits⟩
      rwa [hspec.1 hroom]

/-- `parse` comes to the counted headers just when it stays in step. -/
theorem visits_iff (h : Shows read a (encodeEntries es)) (hsize : ∀ e ∈ es, e.size < 2 ^ 32)
    (hbound : a + (encodeEntries es).length + 512 < 2 ^ 64) (hi : i + (countedHeaders es a).length < 2 ^ 32) :
    Visits read i a (countedHeaders es a) ↔ ∃ regs rest, es = regs ++ rest ∧ InStep read i a regs rest := by
  induction es generalizing i a with
  | nil =>
    unfold countedHeaders
    rw [visits_nil]
    constructor
    · intro hstop
      exact ⟨[], [], rfl, by simp, by simp, by simp, by simp, hstop⟩
    · rintro ⟨regs, rest, hes, hstep⟩
      obtain ⟨rfl, rfl⟩ := List.append_eq_nil_iff.1 hes.symm
      exact hstep.stop
  | cons e es ih =>
    have hcons : encodeEntries (e :: es) = e.encode ++ encodeEntries es := List.flatMap_cons
    rw [hcons, shows_append] at h
    rw [hcons, List.length_append] at hbound
    have hheader := headerAt_of_shows (shows_append.1 h.1).1
    have hlen := @length_encode e
    have hsizes := List.forall_mem_cons.1 hsize
    have hnil := @countedHeaders_eq_nil (a + e.encode.length) es
    unfold countedHeaders at hi ⊢
    cases he : e.regular with
    | true =>
      rw [he, if_pos rfl, List.length_cons] at hi
      have hrest := @ih (i + 1) (a + e.encode.length) h.2 hsizes.2 (by omega) (by omega)
      rw [if_pos rfl, visits_regular hheader hsizes.1 (by omega) (by omega), exists_inStep_of_regular he]
      constructor
      · rintro ⟨hname, hbehind⟩
        split_ifs at hbehind with hes
        · exact ⟨[], es, rfl, (inStep_cons hsizes.1 (by omega)).2 ⟨he, hname, hnil.1 hes, hbehind⟩⟩
        · obtain ⟨regs, rest, rfl, hstep⟩ := hrest.1 hbehind.2
          refine ⟨regs, rest, rfl, (inStep_cons hsizes.1 (by omega)).2 ⟨he, hname, ?_⟩⟩
          rw [if_neg]
          · exact ⟨hbehind.1, hstep⟩
          · rintro rfl
            exact hes (hnil.2 hstep.others)
      · rintro ⟨regs, rest, rfl, hstep⟩
        obtain ⟨-, hname, hbehind⟩ := (inStep_cons hsizes.1 (by omega)).1 hstep
        refine ⟨hname, ?_⟩
        split_ifs at hbehind with hregs
        · subst hregs
          rw [if_pos (hnil.2 hbehind.1)]
          exact hbehind.2
        · rw [if_neg]
          · exact ⟨hbehind.1, hrest.2 ⟨regs, rest, rfl, hbehind.2⟩⟩
          · intro hes
            obtain ⟨e', he'⟩ := List.exists_mem_of_ne_nil _ hregs
            have hother := hnil.1 hes e' (List.mem_append_left _ he')
            rw [hbehind.2.regular e' he'] at hother
            cases hother
    | false =>
      rw [if_neg Bool.false_ne_true, exists_inStep_of_other he, ← hnil]
      cases hes : countedHeaders es (a + e.encode.length) with
      | nil => simp [visits_nil]
      | cons b bs =>
        have hge := @le_of_mem_countedHeaders (a + e.encode.length) es b (by rw [hes]; exact List.mem_cons_self ..)
        refine iff_of_false (fun hvisits => ?_) (by simp)
        cases hvisits
        omega

end

/-- The two walks agree just when the regular files come first and `parse` stays in step over them. -/
theorem parse_agrees_iff {read : Reads} {start : Nat} {es : List TarEntry} {behind : List (BitVec 8)}
    (h : Shows read start (encodeEntries es ++ (List.replicate tarBlockSize 0 ++ behind)))
    (hsize : ∀ e ∈ es, e.size < 2 ^ 32)
    (hbound : start + (encodeEntries es ++ (List.replicate tarBlockSize 0 ++ behind)).length < 2 ^ 64) :
    WalksAgree read start (encodeEntries es ++ (List.replicate tarBlockSize 0 ++ behind)).length es ↔
      ∃ regs rest, es = regs ++ rest ∧ regs.length < 2 ^ 32 ∧ InStep read 0 start regs rest := by
  have hcount := tarCountFiles_zeroBlock h hbound
  rw [← @length_countedHeaders start es] at hcount
  have hroom : start + (encodeEntries es).length + 512 < 2 ^ 64 := by
    simp only [List.length_append, List.length_replicate, tarBlockSize] at hbound
    omega
  have hlen : ∀ regs rest, es = regs ++ rest → InStep read 0 start regs rest →
      (countedHeaders es start).length = regs.length := by
    rintro regs rest rfl hstep
    rw [length_countedHeaders, List.countP_append, List.countP_eq_length.2 hstep.regular,
      List.countP_eq_zero.2 fun e he => by simp [hstep.others e he], Nat.add_zero]
  constructor
  · intro hagree
    obtain ⟨hvisits, hlt⟩ := parse_eq_ok.1 hagree.stored
    obtain ⟨regs, rest, hes, hstep⟩ := (visits_iff (shows_append.1 h).1 hsize hroom (by omega)).1 hvisits
    exact ⟨regs, rest, hes, by rwa [← hlen regs rest hes hstep], hstep⟩
  · rintro ⟨regs, rest, hes, hlt, hstep⟩
    rw [← hlen regs rest hes hstep] at hlt
    have hvisits := (visits_iff (shows_append.1 h).1 hsize hroom (by omega)).2 ⟨regs, rest, hes, hstep⟩
    exact ⟨hcount, parse_eq_ok.2 ⟨hvisits, hlt⟩⟩

/-- It lies in memory at 1 MiB. -/
def twoFilesRead : Reads := within (layBytes 0x100000 twoFilesBytes) 0x100000 (0x100000 + twoFilesBytes.length)

theorem twoFiles_shown : Shows twoFilesRead 0x100000 twoFilesBytes := shows_within holdsAt_layBytes

theorem twoFiles_small : ∀ e ∈ twoFiles, e.size < 2 ^ 32 := by simp [twoFiles, emptyFile]

theorem parse_agrees_iff_twoFiles : WalksAgree twoFilesRead 0x100000 twoFilesBytes.length twoFiles ↔
    ∃ regs rest, twoFiles = regs ++ rest ∧ regs.length < 2 ^ 32 ∧ InStep twoFilesRead 0 0x100000 regs rest :=
  parse_agrees_iff twoFiles_shown twoFiles_small (by decide +kernel)

/-- `parse` takes the end of the second name for the end of the archive: it stores one header of two. -/
theorem parse_disagrees : Shows twoFilesRead 0x100000 twoFilesBytes ∧ (∀ e ∈ twoFiles, e.size < 2 ^ 32) ∧
    ¬WalksAgree twoFilesRead 0x100000 twoFilesBytes.length twoFiles := by
  refine ⟨twoFiles_shown, twoFiles_small, fun hagree => ?_⟩
  obtain ⟨hvisits, -⟩ := parse_eq_ok.1 hagree.stored
  have hcounted : countedHeaders twoFiles 0x100000 = [0x100000, 0x100200] := by decide +kernel
  rw [hcounted] at hvisits
  obtain ⟨-, -, size, hrest⟩ := hvisits.of_cons
  obtain ⟨haddr, ⟨c, hne, hc⟩, -⟩ := hrest.of_cons
  -- the second character of the second name
  have hzero : twoFilesRead (0x100000 + 513) = .ok 0 := twoFiles_shown 513 0 (by decide +kernel)
  rw [haddr] at hc
  exact hne (Except.ok.inj (hc.symm.trans hzero))

end Icarus.Files

/-
From the key to the screen: the keyboard and its controller, the requests of the local APIC, `c_isr` with its two handlers
(ISR_handlers.c), and what is printed in the end, however the keys, the timer and the handlers interleave. It rests on two
conditions outside the handlers: no byte waits when the pin is routed, and no other device interrupts.
-/
import Icarus.Base.Interleaving
import Icarus.Drivers.Keyboard
import Icarus.Drivers.Ps2Controller

namespace Icarus.Drivers

open Icarus.Base Icarus.Base.Dialogue

/-! ## The handlers -/

/-- What a handler does besides ports. -/
inductive KernelOp
  | lapicWrite (reg val : Nat)
  | iprintf (text : List Nat)
  deriving DecidableEq, Repr

/-- A function that uses ports, the local APIC and the console. -/
abbrev HandlerIo := Dialogue (PortOp ⊕ KernelOp) (Sum.elim PortOp.Ans fun _ => Unit)

/-- `lapic_write`. -/
def lapicWrite (reg val : Nat) : HandlerIo Unit := .ask (.inr (.lapicWrite reg val)) .done

/-- `Iprintf`, with the text it comes to. -/
def iprintf (text : List Nat) : HandlerIo Unit := .ask (.inr (.iprintf text)) .done

/-- `LAPIC_EOI`. -/
def lapicEoi : Nat := 0xB0

/-- What `timer_interrupt_handler` prints. -/
def schedulingText : List Nat := ['s', 'c', 'h', 'e', 'd', 'u', 'l', 'i', 'n', 'g', '\n'].map Char.toNat

/-- What `scheduler_pick_next_thread` prints behind it when it finds no ready thread. -/
def noneFoundText : List Nat := ['n', 'o', 'n', 'e', ' ', 'f', 'o', 'u', 'n', 'd', '\n'].map Char.toNat

/-- `timer_interrupt_handler`, with `schedule` as the devices see it: it prints if it found no ready thread, and ends the
interrupt. -/
def timerInterruptHandler (noneFound : Bool) : HandlerIo Unit := do
  iprintf schedulingText
  (if noneFound then iprintf noneFoundText else pure ())
  lapicWrite lapicEoi 0

/-- `keyboard_interrupt_handler`; the flags of the decoder are passed along. -/
def keyboardInterruptHandler (kbd : Ps2KbState) : HandlerIo Ps2KbState := do
  let r ← Dialogue.inl ps2ReadTimeout
  let (c, kbd) := kbdTranslate (BitVec.ofInt 8 r).toNat kbd
  (if c ≠ 0 then iprintf [c] else pure ())
  lapicWrite lapicEoi 0
  return kbd

/-- The vector of the timer. -/
def timerVector : Nat := 32

/-- The vector of the keyboard. -/
def keyboardVector : Nat := 33

/-- `c_isr` for the vectors of devices. -/
def cIsr (noneFound : Bool) (vector : Nat) (kbd : Ps2KbState) : HandlerIo Ps2KbState :=
  if vector = timerVector then do
    timerInterruptHandler noneFound
    return kbd
  else if vector = keyboardVector then keyboardInterruptHandler kbd
  else return kbd

/-! ## The devices -/

/-- The bytes in the keyboard, the one in the controller, the vectors that are requested and in service at the local APIC,
and, for the record, all bytes typed and all texts printed. -/
structure Devices where
  waiting : List (BitVec 8)
  buffer : Option (BitVec 8)
  irr : Finset Nat
  isr : Finset Nat
  typed : List (BitVec 8)
  printed : List (List Nat)

/-- What devices do by themselves: a key gives a byte, the controller takes one when it has none, which is an edge on the
line, and other devices request their vectors. -/
inductive DeviceStep (sources : Set Nat) : Devices → Devices → Prop
  | types {d : Devices} (b : BitVec 8) :
      DeviceStep sources d { d with waiting := d.waiting ++ [b], typed := d.typed ++ [b] }
  | arrives {d : Devices} {b : BitVec 8} {rest : List (BitVec 8)} : d.buffer = none → d.waiting = b :: rest →
      DeviceStep sources d { d with waiting := rest, buffer := some b, irr := insert keyboardVector d.irr }
  | requests {d : Devices} {v : Nat} : v ∈ sources → DeviceStep sources d { d with irr := insert v d.irr }

namespace Devices

/-- What an access does; the end of an interrupt is that of the highest in service. -/
def Access (d : Devices) (e : Exchange (PortOp ⊕ KernelOp) (Sum.elim PortOp.Ans fun _ => Unit)) (d' : Devices) : Prop :=
  match e with
  | ⟨.inl (.inb port), v⟩ =>
    if port = ps2StatusReg then BitVec.getLsbD v ps2StatusOutBuff = d.buffer.isSome ∧ d' = d
    else if port = ps2DataPort then (∀ b ∈ d.buffer, v = b) ∧ d' = { d with buffer := none }
    else d' = d
  | ⟨.inl (.outb ..), _⟩ => d' = d
  | ⟨.inr (.lapicWrite reg _), _⟩ => d' = if reg = lapicEoi then { d with isr := d.isr.erase (d.isr.sup id) } else d
  | ⟨.inr (.iprintf text), _⟩ => d' = { d with printed := d.printed ++ [text] }

/-- The devices go on by themselves before each access. -/
def partner (sources : Set Nat) : Partner (PortOp ⊕ KernelOp) (Sum.elim PortOp.Ans fun _ => Unit) Devices :=
  fun d e d' => ∃ d₁, Relation.ReflTransGen (DeviceStep sources) d d₁ ∧ d₁.Access e d'

/-- A vector is delivered when it is the highest that is requested, and of a higher class than all in service. -/
def Deliverable (d : Devices) (v : Nat) : Prop :=
  v ∈ d.irr ∧ (∀ u ∈ d.irr, u ≤ v) ∧ ∀ u ∈ d.isr, u / 16 < v / 16

/-- The vector is in service, and requested no more. -/
def accept (d : Devices) (v : Nat) : Devices := { d with irr := d.irr.erase v, isr := insert v d.isr }

end Devices

/-- The devices do something, or the processor takes an interrupt, and its handler runs to the end, with a ready thread to
be found or without. -/
inductive ServiceStep (sources : Set Nat) : Devices × Ps2KbState → Option Nat → Devices × Ps2KbState → Prop
  | device {d d' : Devices} {k : Ps2KbState} : DeviceStep sources d d' → ServiceStep sources (d, k) none (d', k)
  | interrupt {d d' : Devices} {k k' : Ps2KbState} {es : List (Exchange (PortOp ⊕ KernelOp) _)} (v : Nat)
      (noneFound : Bool) : d.Deliverable v → Talk (cIsr noneFound v k) es k' →
        Along (Devices.partner sources) (d.accept v) es d' → ServiceStep sources (d, k) (some v) (d', k')

/-! ## One interrupt -/

/-- The timer is the only other source. -/
def timerOnly : Set Nat := {timerVector}

/-- What is between the key and the handler: `read` was read, and the request of the keyboard stands for the byte in the
controller until it is accepted. -/
structure Link (read : List (BitVec 8)) (accepted : Bool) (isr : Finset Nat) (printed : List (List Nat)) (d : Devices) :
    Prop where
  typed : d.typed = read ++ d.buffer.toList ++ d.waiting
  printed : d.printed = printed
  irr : ∀ v ∈ d.irr, v = timerVector ∨ v = keyboardVector
  key : keyboardVector ∈ d.irr ↔ d.buffer.isSome = true ∧ accepted = false
  full : accepted = true → d.buffer.isSome = true
  isr : d.isr = isr

section
variable {read : List (BitVec 8)} {accepted : Bool} {isr : Finset Nat} {texts : List (List Nat)} {d d' : Devices}

/-- The devices keep to it by themselves. -/
theorem Link.device (h : Link read accepted isr texts d) (hstep : DeviceStep timerOnly d d') :
    Link read accepted isr texts d' := by
  obtain ⟨htyped, hprinted, hirr, hkey, hfull, hisr⟩ := h
  cases hstep with
  | types b =>
    refine ⟨?_, hprinted, hirr, hkey, hfull, hisr⟩
    show d.typed ++ [b] = read ++ d.buffer.toList ++ (d.waiting ++ [b])
    rw [htyped, List.append_assoc]
  | @arrives b rest hnone hwaiting =>
    rw [hnone] at htyped hkey hfull
    rw [hwaiting] at htyped
    have hnot : accepted = false := by
      cases accepted with
      | false => rfl
      | true => exact absurd (hfull rfl) (by decide)
    refine ⟨?_, hprinted, ?_, iff_of_true (Finset.mem_insert_self ..) ⟨rfl, hnot⟩, fun _ => rfl, hisr⟩
    · simpa using htyped
    · intro v hv
      rcases Finset.mem_insert.1 hv with rfl | hv
      · exact .inr rfl
      · exact hirr v hv
  | @requests v hv =>
    obtain rfl : v = timerVector := hv
    refine ⟨htyped, hprinted, ?_, ?_, hfull, hisr⟩
    · intro v hv
      rcases Finset.mem_insert.1 hv with rfl | hv
      · exact .inl rfl
      · exact hirr v hv
    · rw [← hkey]
      exact ⟨fun hmem => Finset.mem_of_mem_insert_of_ne hmem (by decide), Finset.mem_insert_of_mem⟩

theorem Link.devices (h : Link read accepted isr texts d) (hsteps : Relation.ReflTransGen (DeviceStep timerOnly) d d') :
    Link read accepted isr texts d' := by
  induction hsteps with
  | refl => exact h
  | tail _ hstep ih => exact ih.device hstep

/-- The end of the one interrupt in service. -/
theorem eoi_meets {v : Nat} :
    Meets (Devices.partner timerOnly) (Link read accepted {v} texts) (lapicWrite lapicEoi 0) fun _ =>
      Link read accepted ∅ texts := by
  rintro d h u d' ⟨d₁, hsteps, rfl⟩
  have h₁ := h.devices hsteps
  have hlast : d₁.isr.erase (d₁.isr.sup id) = ∅ := by
    rw [h₁.isr, Finset.sup_singleton]
    exact Finset.erase_singleton _
  exact ⟨h₁.typed, h₁.printed, h₁.irr, h₁.key, h₁.full, hlast⟩

theorem iprintf_meets {text : List Nat} :
    Meets (Devices.partner timerOnly) (Link read accepted isr texts) (iprintf text) fun _ =>
      Link read accepted isr (texts ++ [text]) := by
  rintro d h u d' ⟨d₁, hsteps, rfl⟩
  have h₁ := h.devices hsteps
  exact ⟨h₁.typed, congrArg (· ++ [text]) h₁.printed, h₁.irr, h₁.key, h₁.full, h₁.isr⟩

/-- What the timer's handler prints. -/
def tickTexts (noneFound : Bool) : List (List Nat) :=
  if noneFound then [schedulingText, noneFoundText] else [schedulingText]

/-- The timer only prints, and ends its interrupt. -/
theorem timerInterruptHandler_meets (noneFound : Bool) :
    Meets (Devices.partner timerOnly) (Link read accepted {timerVector} texts) (timerInterruptHandler noneFound) fun _ =>
      Link read accepted ∅ (texts ++ tickTexts noneFound) := by
  refine iprintf_meets.bind fun _ => ?_
  cases noneFound with
  | false => exact eoi_meets
  | true =>
    have hboth : texts ++ tickTexts true = texts ++ [schedulingText] ++ [noneFoundText] :=
      (List.append_assoc texts [schedulingText] [noneFoundText]).symm
    rw [hboth]
    exact iprintf_meets.bind fun _ => eoi_meets

/-- A byte in the controller stays there until it is read. -/
theorem buffer_stays {b : BitVec 8} (h : d.buffer = some b)
    (hsteps : Relation.ReflTransGen (DeviceStep timerOnly) d d') : d'.buffer = some b := by
  induction hsteps with
  | refl => exact h
  | tail _ hstep ih =>
    cases hstep with
    | types => exact ih
    | arrives hnone => exact absurd (ih.symm.trans hnone) (by simp)
    | requests => exact ih

/-- The byte is there at the first look. -/
theorem ps2ReadTimeout_meets {b : BitVec 8} :
    Meets (Devices.partner timerOnly) (fun d => Link read true isr texts d ∧ d.buffer = some b)
      (Dialogue.inl ps2ReadTimeout : HandlerIo Int) fun r d =>
        r = (b.toNat : Int) ∧ Link (read ++ [b]) false isr texts d := by
  rintro d ⟨h, hb⟩
  obtain ⟨n, hn⟩ : ∃ n, ps2Timeout = n + 1 := ⟨99999, by unfold ps2Timeout; rfl⟩
  rw [ends_inl, ps2ReadTimeout, hn, pollRead, ends_bind]
  rintro status d₂ ⟨d₁, hsteps, hlook⟩
  obtain ⟨hbit, rfl⟩ : BitVec.getLsbD status ps2StatusOutBuff = d₁.buffer.isSome ∧ d₂ = d₁ := hlook
  have hb₁ := buffer_stays hb hsteps
  have h₁ := h.devices hsteps
  show Ends _ _ (if status.getLsbD ps2StatusOutBuff = true then _ else _) _
  rw [hb₁] at hbit
  have hready : BitVec.getLsbD status ps2StatusOutBuff = true := hbit
  rw [if_pos hready, ends_bind]
  rintro v d₃ ⟨d₂, hsteps₂, hread⟩
  obtain ⟨hv, rfl⟩ : (∀ b ∈ d₂.buffer, v = b) ∧ d₃ = { d₂ with buffer := none } := hread
  have hb₂ := buffer_stays hb₁ hsteps₂
  have h₂ := h₁.devices hsteps₂
  obtain rfl : v = b := hv b hb₂
  refine ⟨rfl, ?_, h₂.printed, h₂.irr, ?_, nofun, h₂.isr⟩
  · have htyped := h₂.typed
    rw [hb₂] at htyped
    simpa using htyped
  · have hkey := h₂.key
    rw [hb₂] at hkey
    simpa using hkey

/-- What the keyboard's handler prints for a character. -/
def keyTexts (c : Nat) : List (List Nat) := if c ≠ 0 then [[c]] else []

/-- The keyboard's handler reads the byte that its request stands for, prints what it means, and ends its interrupt. -/
theorem keyboardInterruptHandler_meets {b : BitVec 8} (k : Ps2KbState) :
    Meets (Devices.partner timerOnly) (fun d => Link read true {keyboardVector} texts d ∧ d.buffer = some b)
      (keyboardInterruptHandler k) fun k' d =>
        k' = (kbdTranslate b.toNat k).2 ∧
          Link (read ++ [b]) false ∅ (texts ++ keyTexts (kbdTranslate b.toNat k).1) d := by
  unfold keyboardInterruptHandler
  refine ps2ReadTimeout_meets.bind fun r => ?_
  rintro d ⟨rfl, h⟩
  have hbyte : BitVec.ofInt 8 (b.toNat : Int) = b := by
    rw [BitVec.ofInt_natCast, BitVec.ofNat_toNat, BitVec.setWidth_eq]
  rw [hbyte]
  dsimp only
  have hprint : Meets (Devices.partner timerOnly) (Link (read ++ [b]) false {keyboardVector} texts)
      (if (kbdTranslate b.toNat k).1 ≠ 0 then iprintf [(kbdTranslate b.toNat k).1] else pure ()) fun _ =>
        Link (read ++ [b]) false {keyboardVector} (texts ++ keyTexts (kbdTranslate b.toNat k).1) := by
    unfold keyTexts
    split_ifs
    · exact iprintf_meets
    · rw [List.append_nil]
      exact fun d h => h
  refine (hprint.bind fun _ => eoi_meets.bind fun _ => ?_) d h
  exact fun d h => ⟨rfl, h⟩

/-- What is printed besides the texts of the timer's handler. -/
def besidesTicks (texts : List (List Nat)) : List (List Nat) := texts.filter (· ∉ tickTexts true)

theorem besidesTicks_append (as bs : List (List Nat)) :
    besidesTicks (as ++ bs) = besidesTicks as ++ besidesTicks bs := List.filter_append ..

theorem besidesTicks_tick (noneFound : Bool) : besidesTicks (tickTexts noneFound) = [] := by
  cases noneFound <;> decide

/-- A single character is neither of them. -/
theorem besidesTicks_key (c : Nat) : besidesTicks (keyTexts c) = keyTexts c := by
  refine List.filter_eq_self.2 fun text htext => ?_
  have hone : text.length = 1 := by
    unfold keyTexts at htext
    split_ifs at htext
    · rw [List.mem_singleton.1 htext]
      rfl
    · exact absurd htext List.not_mem_nil
  have htick : ∀ text ∈ tickTexts true, text.length = 11 := by decide
  refine decide_eq_true fun hmem => ?_
  rw [htick text hmem] at hone
  exact absurd hone (by decide)

/-! ## Runs -/

/-- The texts for the characters. -/
def keysTexts (cs : List Nat) : List (List Nat) := cs.flatMap keyTexts

/-- Between interrupts: what is printed besides the texts of the timer's handler is what the bytes read mean. -/
structure Faithful (k₀ : Ps2KbState) (keys : Nat) (s : Devices × Ps2KbState) : Prop where
  link : ∃ read texts, read.length = keys ∧ Link read false ∅ texts s.1 ∧
    besidesTicks texts = keysTexts (kbdFeed (read.map BitVec.toNat) k₀).1 ∧
    s.2 = (kbdFeed (read.map BitVec.toNat) k₀).2

theorem kbdFeed_snoc (bytes : List Nat) (b : Nat) (k : Ps2KbState) :
    kbdFeed (bytes ++ [b]) k =
      ((kbdFeed bytes k).1 ++ [(kbdTranslate b (kbdFeed bytes k).2).1], (kbdTranslate b (kbdFeed bytes k).2).2) := by
  induction bytes generalizing k with
  | nil => rfl
  | cons c bytes ih =>
    rcases hk : kbdTranslate c k with ⟨c', k'⟩
    simp only [List.cons_append, kbdFeed, hk, ih]

variable {sources : Set Nat} {k k' k₀ : Ps2KbState} {ls : List (Option Nat)} {s s' s₁ : Devices × Ps2KbState}

/-- The timer's interrupt is taken. -/
theorem Link.accept_timer (h : Link read accepted ∅ texts d) :
    Link read accepted {timerVector} texts (d.accept timerVector) := by
  refine ⟨h.typed, h.printed, fun v hv => h.irr v (Finset.mem_of_mem_erase hv), ?_, h.full, ?_⟩
  · exact (Finset.mem_erase.trans (and_iff_right (by decide))).trans h.key
  · show insert timerVector d.isr = _
    rw [h.isr]
    rfl

/-- The timer's interrupt is served. -/
theorem Link.timer_ends (h : Link read accepted ∅ texts d) (noneFound : Bool) (k : Ps2KbState) :
    Ends (Devices.partner timerOnly) (fun k' d => k' = k ∧ Link read accepted ∅ (texts ++ tickTexts noneFound) d)
      (cIsr noneFound timerVector k) (d.accept timerVector) := by
  refine (timerInterruptHandler_meets noneFound).bind (fun _ => ?_) _ h.accept_timer
  exact fun d h => ⟨rfl, h⟩

/-- The keyboard's interrupt is taken, for the byte that is in the controller. -/
theorem Link.accept_keyboard (h : Link read false ∅ texts d) (hreq : keyboardVector ∈ d.irr) :
    ∃ b, Link read true {keyboardVector} texts (d.accept keyboardVector) ∧
      (d.accept keyboardVector).buffer = some b := by
  have hfull := (h.key.1 hreq).1
  obtain ⟨b, hb⟩ := Option.isSome_iff_exists.1 hfull
  refine ⟨b, ⟨h.typed, h.printed, fun v hv => h.irr v (Finset.mem_of_mem_erase hv), ?_, fun _ => hfull, ?_⟩, hb⟩
  · exact iff_of_false (Finset.notMem_erase _ _) (by simp)
  · show insert keyboardVector d.isr = _
    rw [h.isr]
    rfl

/-- One step: the timer's handler, and the devices by themselves, leave it as it is, and the keyboard's handler reads one
byte. -/
theorem Faithful.step {l : Option Nat} {keys : Nat} (h : Faithful k₀ keys s) (hstep : ServiceStep timerOnly s l s') :
    Faithful k₀ (keys + [l].count (some keyboardVector)) s' := by
  obtain ⟨read, texts, hlen, hlink, htexts, hkbd⟩ := h
  cases hstep with
  | device hdevice => exact ⟨read, texts, hlen, hlink.device hdevice, htexts, hkbd⟩
  | @interrupt d d' k k' es v noneFound hdel htalk halong =>
    rcases hlink.irr v hdel.1 with rfl | rfl
    · obtain ⟨rfl, hlink'⟩ := ends_iff.1 (hlink.timer_ends noneFound k) es k' d' htalk halong
      refine ⟨read, _, hlen, hlink', ?_, hkbd⟩
      rw [besidesTicks_append, htexts, besidesTicks_tick, List.append_nil]
    · obtain ⟨b, haccept, hb⟩ := hlink.accept_keyboard hdel.1
      obtain ⟨rfl, hlink'⟩ := ends_iff.1 (keyboardInterruptHandler_meets k _ ⟨haccept, hb⟩) es k' d' htalk halong
      refine ⟨read ++ [b], _, ?_, hlink', ?_, ?_⟩
      · rw [List.length_append, hlen]
        rfl
      · rw [besidesTicks_append, htexts, List.map_append, List.map_singleton, kbdFeed_snoc, ← hkbd]
        rw [keysTexts, keysTexts, List.flatMap_append, besidesTicks_key]
        simp
      · rw [List.map_append, List.map_singleton, kbdFeed_snoc, ← hkbd]

/-- A run. -/
theorem Faithful.run {keys : Nat} (h : Faithful k₀ keys s) (htrace : Trace (ServiceStep timerOnly) s ls s') :
    Faithful k₀ (keys + ls.count (some keyboardVector)) s' := by
  induction htrace generalizing keys with
  | nil => exact h
  | @cons s s₁ s' l ls hstep _ ih =>
    have hcount : (l :: ls).count (some keyboardVector) =
        [l].count (some keyboardVector) + ls.count (some keyboardVector) :=
      @List.count_append _ _ _ [l] ls
    rw [hcount, ← Nat.add_assoc]
    exact ih (h.step hstep)

/-- Nothing is requested or in service, and nothing was read or printed. -/
structure AtStart (d : Devices) : Prop where
  typed : d.typed = d.buffer.toList ++ d.waiting
  printed : d.printed = []
  irr : d.irr = ∅
  isr : d.isr = ∅

/-- A byte that is in the controller at the start counts as accepted: no request stands for it. -/
theorem AtStart.link (h : AtStart d) : Link [] d.buffer.isSome ∅ [] d := by
  refine ⟨h.typed, h.printed, ?_, ?_, id, h.isr⟩
  · rw [h.irr]
    exact fun v hv => absurd hv (Finset.notMem_empty v)
  · rw [h.irr]
    refine iff_of_false (Finset.notMem_empty _) fun ⟨hsome, hnone⟩ => ?_
    exact absurd (hsome.symm.trans hnone) (by decide)

/-- Whatever a handler asks, the devices have an answer. -/
theorem devices_answer (sources : Set Nat) (d : Devices) (op : PortOp ⊕ KernelOp) :
    ∃ v d', Devices.partner sources d ⟨op, v⟩ d' := by
  have haccess : ∃ v d', d.Access ⟨op, v⟩ d' := by
    rcases op with (port | ⟨port, v⟩) | (⟨reg, val⟩ | text)
    · by_cases hstatus : port = ps2StatusReg
      · obtain ⟨status, hstatusBit⟩ : ∃ status : BitVec 8, status.getLsbD ps2StatusOutBuff = d.buffer.isSome := by
          cases d.buffer with
          | none => exact ⟨0, by decide⟩
          | some b => exact ⟨1, show BitVec.getLsbD 1#8 ps2StatusOutBuff = true by decide⟩
        refine ⟨status, d, ?_⟩
        show if port = ps2StatusReg then _ else _
        rw [if_pos hstatus]
        exact ⟨hstatusBit, rfl⟩
      · by_cases hdata : port = ps2DataPort
        · refine ⟨d.buffer.getD 0, { d with buffer := none }, ?_⟩
          show if port = ps2StatusReg then _ else if port = ps2DataPort then _ else _
          rw [if_neg hstatus, if_pos hdata]
          refine ⟨?_, rfl⟩
          rintro b hb
          rw [Option.mem_def.1 hb]
          rfl
        · refine ⟨0#8, d, ?_⟩
          show if port = ps2StatusReg then _ else if port = ps2DataPort then _ else _
          rw [if_neg hstatus, if_neg hdata]
    · exact ⟨(), d, rfl⟩
    · exact ⟨(), _, rfl⟩
    · exact ⟨(), _, rfl⟩
  obtain ⟨v, d', h⟩ := haccess
  exact ⟨v, d', d, .refl, h⟩

/-- With an empty controller a key is typed and its interrupt taken. -/
theorem keyboard_run (hstart : AtStart d) (hempty : d.buffer = none) (k : Ps2KbState) :
    ∃ ls s', Trace (ServiceStep timerOnly) (d, k) ls s' ∧ some keyboardVector ∈ ls := by
  obtain ⟨b, rest, hwaiting⟩ : ∃ b rest, d.waiting ++ [0#8] = b :: rest := by
    rcases d.waiting with _ | ⟨b, rest⟩
    · exact ⟨0, [], rfl⟩
    · exact ⟨b, rest ++ [0], rfl⟩
  let d₁ : Devices := { d with waiting := d.waiting ++ [0], typed := d.typed ++ [0] }
  let d₂ : Devices := { d₁ with waiting := rest, buffer := some b, irr := insert keyboardVector d.irr }
  have htypes : DeviceStep timerOnly d d₁ := .types 0
  have harrives : DeviceStep timerOnly d₁ d₂ := .arrives hempty hwaiting
  have hirr : d₂.irr = {keyboardVector} := by
    show insert keyboardVector d.irr = _
    rw [hstart.irr]
    rfl
  have hisr : d₂.isr = ∅ := hstart.isr
  have hdel : d₂.Deliverable keyboardVector := by
    unfold Devices.Deliverable
    rw [hirr, hisr]
    exact ⟨Finset.mem_singleton_self _, fun u hu => (Finset.mem_singleton.1 hu).le, nofun⟩
  obtain ⟨es, k', d', htalk, halong⟩ :=
    exists_talk (devices_answer timerOnly) (cIsr false keyboardVector k) (d₂.accept keyboardVector)
  have hinterrupt := ServiceStep.interrupt keyboardVector false hdel htalk halong
  exact ⟨_, _, .cons (.device htypes) (.cons (.device harrives) (.cons hinterrupt (.nil _))), by simp⟩

/-- No key was pressed yet. -/
def idleDevices : Devices := ⟨[], none, ∅, ∅, [], []⟩

theorem idleDevices_atStart : AtStart idleDevices := ⟨rfl, rfl, rfl, rfl⟩

/-- Keys reach the screen: if no byte is in the controller at the start, then in every run, however keys, timer and
handlers interleave, each interrupt of the keyboard reads one byte, these are the bytes typed in their order, none lost
and none twice, and what is printed besides the texts of the timer's handler is what they mean. Between handlers no
interrupt is in service, and that of the keyboard can be taken whenever a byte is in the controller. -/
theorem keys_reach_screen (hstart : AtStart d) (hempty : d.buffer = none)
    (h : Trace (ServiceStep timerOnly) (d, k₀) ls (d', k)) :
    ∃ read, d'.typed = read ++ d'.buffer.toList ++ d'.waiting ∧ read.length = ls.count (some keyboardVector) ∧
      besidesTicks d'.printed = keysTexts (kbdFeed (read.map BitVec.toNat) k₀).1 ∧
      k = (kbdFeed (read.map BitVec.toNat) k₀).2 ∧ d'.isr = ∅ ∧
      (d'.Deliverable keyboardVector ↔ d'.buffer.isSome = true) := by
  have hlink := hstart.link
  rw [hempty] at hlink
  have hfirst : Faithful k₀ 0 (d, k₀) := ⟨[], [], rfl, hlink, rfl, rfl⟩
  obtain ⟨read, texts, hlen, hlink', htexts, hkbd⟩ := hfirst.run h
  rw [Nat.zero_add] at hlen
  refine ⟨read, hlink'.typed, hlen, hlink'.printed ▸ htexts, hkbd, hlink'.isr, ?_⟩
  have hkey : keyboardVector ∈ d'.irr ↔ d'.buffer.isSome = true := hlink'.key.trans (and_iff_left rfl)
  rw [← hkey]
  refine ⟨fun hdel => hdel.1, fun hreq => ⟨hreq, fun u hu => ?_, fun u hu => ?_⟩⟩
  · rcases hlink'.irr u hu with rfl | rfl <;> decide
  · have hisr : d'.isr = ∅ := hlink'.isr
    rw [hisr] at hu
    exact absurd hu (Finset.notMem_empty u)

theorem keys_reach_screen_idle :
    ∃ ls d' k read, Trace (ServiceStep timerOnly) (idleDevices, ps2State) ls (d', k) ∧ some keyboardVector ∈ ls ∧
      d'.typed = read ++ d'.buffer.toList ++ d'.waiting ∧ read.length = ls.count (some keyboardVector) ∧
      besidesTicks d'.printed = keysTexts (kbdFeed (read.map BitVec.toNat) ps2State).1 := by
  obtain ⟨ls, ⟨d', k⟩, htrace, hin⟩ := keyboard_run idleDevices_atStart rfl ps2State
  obtain ⟨read, htyped, hlen, hprinted, -⟩ := keys_reach_screen idleDevices_atStart rfl htrace
  exact ⟨ls, d', k, read, htrace, hin, htyped, hlen, hprinted⟩

/-- A byte that is in the controller when another could come makes no edge any more. -/
theorem Link.stuck {l : Option Nat} (h : Link [] true ∅ texts s.1) (hstep : ServiceStep timerOnly s l s') :
    (∃ texts', Link [] true ∅ texts' s'.1) ∧ l ≠ some keyboardVector := by
  cases hstep with
  | device hdevice => exact ⟨⟨texts, h.device hdevice⟩, nofun⟩
  | @interrupt d d' k k' es v noneFound hdel htalk halong =>
    rcases h.irr v hdel.1 with rfl | rfl
    · exact ⟨⟨_, (ends_iff.1 (h.timer_ends noneFound k) es k' d' htalk halong).2⟩, by decide⟩
    · exact absurd (h.key.1 hdel.1).2 (by decide)

theorem Link.stuck_run (h : Link [] true ∅ texts s.1) (htrace : Trace (ServiceStep timerOnly) s ls s') :
    some keyboardVector ∉ ls := by
  induction htrace generalizing texts with
  | nil => exact List.not_mem_nil
  | cons hstep _ ih =>
    obtain ⟨⟨texts', h'⟩, hne⟩ := h.stuck hstep
    exact List.not_mem_cons_of_ne_of_not_mem hne.symm (ih h')

/-- The keyboard ever interrupts if and only if no byte is in the controller at the start. -/
theorem keyboard_alive_iff (hstart : AtStart d) :
    (∃ ls s', Trace (ServiceStep timerOnly) (d, k) ls s' ∧ some keyboardVector ∈ ls) ↔ d.buffer = none := by
  constructor
  · rintro ⟨ls, s', htrace, hin⟩
    by_contra hfull
    have hlink := hstart.link
    rw [Option.isSome_iff_ne_none.2 hfull] at hlink
    exact Link.stuck_run (s := (d, k)) hlink htrace hin
  · exact fun hempty => keyboard_run hstart hempty k

theorem keyboard_alive_iff_late :
    ¬∃ ls s', Trace (ServiceStep timerOnly)
      ({ idleDevices with buffer := some 0x1E, typed := [0x1E] }, ps2State) ls s' ∧ some keyboardVector ∈ ls := by
  rw [keyboard_alive_iff ⟨rfl, rfl, rfl, rfl⟩]
  exact nofun

/-- While `v` is in service, only higher classes are taken, and their handler does nothing. -/
theorem foreign_step {v : Nat} {l : Option Nat} (hv : 32 ≤ v) (hin : v ∈ s.1.isr) (h : ServiceStep sources s l s') :
    v ∈ s'.1.isr ∧ ∀ u, l = some u → v / 16 < u / 16 := by
  cases h with
  | device hdevice =>
    cases hdevice with
    | types => exact ⟨hin, nofun⟩
    | arrives => exact ⟨hin, nofun⟩
    | requests => exact ⟨hin, nofun⟩
  | @interrupt d d' k k' es u noneFound hdel htalk halong =>
    have hclass : v / 16 < u / 16 := hdel.2.2 v hin
    have hother : cIsr noneFound u k = return k := by
      unfold cIsr timerVector keyboardVector
      rw [if_neg (by omega), if_neg (by omega)]
    rw [hother] at htalk
    cases htalk
    cases halong
    exact ⟨Finset.mem_insert_of_mem hin, fun w hw => Option.some.inj hw ▸ hclass⟩

/-- An interrupt of another device is not ended by `c_isr`: once one was taken, no interrupt of its class or a lower one is
ever taken again, neither the timer's nor the keyboard's. -/
theorem foreign_interrupt_blocks {v : Nat} (hv : 32 ≤ v) (htimer : v ≠ timerVector) (hkeyboard : v ≠ keyboardVector)
    (h : ServiceStep sources s (some v) s₁) (hrun : Trace (ServiceStep sources) s₁ ls s') :
    ∀ u, some u ∈ ls → v / 16 < u / 16 ∧ u ≠ timerVector ∧ u ≠ keyboardVector := by
  have hin : v ∈ s₁.1.isr := by
    cases h with
    | @interrupt d d' k k' es _ noneFound hdel htalk halong =>
      have hother : cIsr noneFound v k = return k := by
        unfold cIsr
        rw [if_neg htimer, if_neg hkeyboard]
      rw [hother] at htalk
      cases htalk
      cases halong
      exact Finset.mem_insert_self ..
  clear h
  intro u hu
  have hclass : v / 16 < u / 16 := by
    induction hrun with
    | nil => exact absurd hu List.not_mem_nil
    | cons hstep _ ih =>
      obtain ⟨hin', hclass⟩ := foreign_step hv hin hstep
      rcases List.mem_cons.1 hu with rfl | hu
      · exact hclass u rfl
      · exact ih hin' hu
  refine ⟨hclass, ?_, ?_⟩
  · rintro rfl
    unfold timerVector at hclass
    omega
  · rintro rfl
    unfold keyboardVector at hclass
    omega

end

/-- A device with vector 40 interrupts, and then one of a higher class. -/
theorem foreign_interrupt_blocks_forty :
    ∃ s₁ s', ServiceStep {40, 48} ({ idleDevices with irr := {40} }, ps2State) (some 40) s₁ ∧
      Trace (ServiceStep {40, 48}) s₁ [none, some 48] s' ∧
      ∀ u, some u ∈ [none, some 48] → 40 / 16 < u / 16 ∧ u ≠ timerVector ∧ u ≠ keyboardVector := by
  have hdel : Devices.Deliverable { idleDevices with irr := {40} } 40 := by
    refine ⟨by decide, by decide, by decide⟩
  have hstep : ServiceStep {40, 48} ({ idleDevices with irr := {40} }, ps2State) (some 40)
      (({ idleDevices with irr := {40} } : Devices).accept 40, ps2State) := .interrupt 40 false hdel (.done _) (.nil _)
  have hrequest : DeviceStep {40, 48} { idleDevices with isr := {40} } { idleDevices with irr := {48}, isr := {40} } :=
    .requests (by simp)
  have hdel' : Devices.Deliverable { idleDevices with irr := {48}, isr := {40} } 48 := by
    refine ⟨by decide, by decide, by decide⟩
  have hrun : Trace (ServiceStep {40, 48}) (({ idleDevices with irr := {40} } : Devices).accept 40, ps2State)
      [none, some 48] _ :=
    .cons (.device hrequest) (.cons (.interrupt 48 false hdel' (.done _) (.nil _)) (.nil _))
  exact ⟨_, _, hstep, hrun, foreign_interrupt_blocks (by decide) (by decide) (by decide) hstep hrun⟩

end Icarus.Drivers

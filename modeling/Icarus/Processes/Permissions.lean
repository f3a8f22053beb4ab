/-
What `thread_supply_new_mem` makes of the sizes and the permissions it is given for the three sub-spaces, read back from
the sizes of the control block and the leaves of its page table.
-/
import Icarus.Processes.SupplyRuns

namespace Icarus.Processes

open Icarus.Base Icarus.Memory

/-! ## What is asked for -/

/-- The size asked for the pages of a sub-space. -/
def AllocationInfo.pageSize (info : AllocationInfo) : AddrSubSpace → Nat
  | .code => info.codePageSize
  | .mapping => info.mappingPageSize
  | .stack => info.stackPageSize

/-- The permissions asked for the pages of a sub-space. -/
def PermissionInfo.perms (perms : PermissionInfo) : AddrSubSpace → Nat
  | .code => perms.codePerms
  | .mapping => perms.mappingPerms
  | .stack => perms.stackPerms

/-- What `thread_supply_new_mem` passes on as the permissions of a sub-space. -/
def AllocationInfo.forwarded (info : AllocationInfo) : AddrSubSpace → Nat
  | .code => info.codePages
  | .mapping => info.mappingPageSize
  | .stack => info.stackPageSize

/-- The leaf has the bits of `perms`, and the user may use it as `user` says. -/
structure LeafCarries (e : Entry) (perms : Nat) (user : Bool) : Prop where
  writeable : e.writeable = permBit perms writeableShift
  cacheDisabled : e.cacheDisabled = permBit perms cacheDisabledShift
  writeThrough : e.writeThrough = permBit perms writeThroughShift
  executionDisabled : e.executionDisabled = permBit perms executionDisabledShift
  user : e.userAccess = user

/-- From `k` to `k'` the sub-space has grown by the pages asked for, and their leaves carry the permissions asked for. -/
structure Honoured (p : TcbPtr) (info : AllocationInfo) (perms : PermissionInfo) (k k' : Kernel) (sub : AddrSubSpace) :
    Prop where
  size : (k'.sched.tcbs p).memory sub = (k.sched.tcbs p).memory sub + info.pages sub * info.pageSize sub
  leaves : ∀ va, subSpaceToAddr sub + (k.sched.tcbs p).memory sub ≤ va →
    va < subSpaceToAddr sub + (k'.sched.tcbs p).memory sub →
      ∃ w, mmuWalk k'.mem 4 (k'.sched.tcbs p).pageTable va = some w ∧ 4096 * 512 ^ w.level = info.pageSize sub ∧
        LeafCarries w.leaf (perms.perms sub) (!(k'.sched.tcbs p).privileged)

/-- The pages are of 4 KiB, and what is passed on as their permissions has the bits of the permissions asked for, and for
a privileged thread no user bit. -/
structure PassedOn (privileged : Bool) (info : AllocationInfo) (perms : PermissionInfo) (sub : AddrSubSpace) : Prop where
  size : info.pageSize sub = defaultPageSize
  writeable : permBit (info.forwarded sub) writeableShift = permBit (perms.perms sub) writeableShift
  cacheDisabled : permBit (info.forwarded sub) cacheDisabledShift = permBit (perms.perms sub) cacheDisabledShift
  writeThrough : permBit (info.forwarded sub) writeThroughShift = permBit (perms.perms sub) writeThroughShift
  executionDisabled :
    permBit (info.forwarded sub) executionDisabledShift = permBit (perms.perms sub) executionDisabledShift
  user : privileged = true → permBit (info.forwarded sub) userAccessShift = false

/-! ## Permission bits -/

theorem permBit_eq_testBit (p shift : Nat) : permBit p shift = p.testBit shift := by
  unfold permBit
  rw [Nat.testBit, Nat.and_comm, Nat.one_and_eq_mod_two]
  rcases Nat.mod_two_eq_zero_or_one (p >>> shift) with h | h <;> simp [h]

section
variable (t : Tcb) (permissions : Nat)

/-- A thread only adds the user bit to permissions. -/
theorem permBit_threadPerms {shift : Nat} (h : shift ≠ userAccessShift) :
    permBit (threadPerms t permissions) shift = permBit permissions shift := by
  unfold threadPerms
  rw [permBit_eq_testBit, permBit_eq_testBit, Nat.testBit_or]
  have hzero : ((if t.privileged then 0 else 1) <<< userAccessShift).testBit shift = false := by
    cases t.privileged with
    | true => simp
    | false => exact Nat.testBit_two_pow_of_ne (Ne.symm h)
  rw [hzero, Bool.or_false]

theorem permBit_threadPerms_user :
    permBit (threadPerms t permissions) userAccessShift = (permBit permissions userAccessShift || !t.privileged) := by
  unfold threadPerms
  rw [permBit_eq_testBit, permBit_eq_testBit, Nat.testBit_or]
  cases t.privileged with
  | true => simp
  | false => simp [userAccessShift, Nat.testBit]

end

/-- A leaf that was mapped with what is passed on carries what was asked for exactly when the two agree. -/
theorem leafCarries_iff {e : Entry} {c : MapCall} {t : Tcb} {forwarded perms : Nat} (h : e.MapsAs c)
    (hc : c.permissions = threadPerms t forwarded) :
    LeafCarries e perms (!t.privileged) ↔ permBit forwarded writeableShift = permBit perms writeableShift ∧
      permBit forwarded cacheDisabledShift = permBit perms cacheDisabledShift ∧
      permBit forwarded writeThroughShift = permBit perms writeThroughShift ∧
      permBit forwarded executionDisabledShift = permBit perms executionDisabledShift ∧
      (t.privileged = true → permBit forwarded userAccessShift = false) := by
  have hwrite := h.write
  have hcache := h.cacheDisabled
  have hthrough := h.writeThrough
  have hexec := h.executionDisabled
  have huser := h.user
  rw [hc, permBit_threadPerms t forwarded (by decide)] at hwrite hcache hthrough hexec
  rw [hc, permBit_threadPerms_user] at huser
  constructor
  · intro ⟨h1, h2, h3, h4, h5⟩
    refine ⟨hwrite ▸ h1, hcache ▸ h2, hthrough ▸ h3, hexec ▸ h4, fun hp => ?_⟩
    rw [huser, hp] at h5
    simpa using h5
  · intro ⟨h1, h2, h3, h4, h5⟩
    refine ⟨hwrite.trans h1, hcache.trans h2, hthrough.trans h3, hexec.trans h4, ?_⟩
    rw [huser]
    cases hp : t.privileged with
    | true => rw [h5 hp]; rfl
    | false => exact Bool.or_true _

/-! ## The three calls -/

section
variable {p : TcbPtr} {t₀ : Tcb} {m₀ : Mem} {log : SupplyLog} {map : PageMap} {T : Tables} {k k' : Kernel}
variable {info : AllocationInfo} {perms : PermissionInfo} {block : SupplyBlock} {sub : AddrSubSpace}

/-- `thread_supply_new_mem` returned 0, so all three of its calls went through. -/
theorem threadSupplyNewMem_eq_ok (he : threadSupplyNewMem (some p) info perms k = .ok (0, block, k')) :
    ∃ r₁ r₂ r₃ k₁ k₂, r₁ ≠ none ∧ r₂ ≠ none ∧ r₃ ≠ none ∧
      threadSupplyNewMemRegion (some p) .code info.codePages perms.codePerms info.codePages k = .ok (r₁, k₁) ∧
      threadSupplyNewMemRegion (some p) .mapping info.mappingPages perms.mappingPerms info.mappingPageSize k₁ =
        .ok (r₂, k₂) ∧
      threadSupplyNewMemRegion (some p) .stack info.stackPages perms.stackPerms info.stackPageSize k₂ =
        .ok (r₃, k') := by
  obtain ⟨⟨r₁, k₁⟩, h₁, he⟩ := bind_eq_ok.1 he
  obtain ⟨⟨r₂, k₂⟩, h₂, he⟩ := bind_eq_ok.1 he
  obtain ⟨⟨r₃, k₃⟩, h₃, he⟩ := bind_eq_ok.1 he
  dsimp only at he h₂ h₃
  split_ifs at he with hnone
  · cases he
  · cases he
    rw [not_or, not_or] at hnone
    exact ⟨r₁, r₂, r₃, k₁, k₂, hnone.1, hnone.2.1, hnone.2.2, h₁, h₂, h₃⟩

/-- What the three calls add to the log. -/
theorem SupplyInv.newMem (h : SupplyInv p t₀ m₀ log map T k)
    (hlarge : ∀ va, InLowerHalf va → NoLarger 0 m₀ 4 t₀.pageTable va)
    (hroom : ∀ sub, pageVirtAddr sub ((log sub).length + info.pages sub) < subSpaceEnd sub)
    (he : threadSupplyNewMem (some p) info perms k = .ok (0, block, k')) :
    ∃ (added : SupplyLog) (map' : PageMap) (T' : Tables), (∀ sub, (added sub).length = info.pages sub) ∧
      (∀ sub, ∀ page ∈ added sub, page.permissions = threadPerms t₀ (info.forwarded sub)) ∧
      (∀ j page, (added .code)[j]? = some page → page.frame = memMapSource.nth j k.mmap) ∧
      SupplyInv p t₀ m₀ (fun sub => log sub ++ added sub) map' T' k' := by
  obtain ⟨r₁, r₂, r₃, k₁, k₂, hr₁, hr₂, hr₃, h₁, h₂, h₃⟩ := threadSupplyNewMem_eq_ok he
  obtain ⟨code, _, _, hcode, hcodePerms, hframes, -, hinv⟩ := h.region hlarge h₁ hr₁ (hroom .code)
  obtain ⟨mapping, _, _, hmapping, hmappingPerms, -, -, hinv⟩ := hinv.region hlarge h₂ hr₂ (by
    rw [SupplyLog.add_of_ne log (by decide)]
    exact hroom .mapping)
  obtain ⟨stack, map', T', hstack, hstackPerms, -, -, hinv⟩ := hinv.region hlarge h₃ hr₃ (by
    rw [SupplyLog.add_of_ne _ (by decide), SupplyLog.add_of_ne log (by decide)]
    exact hroom .stack)
  have hlog : ((log.add .code code).add .mapping mapping).add .stack stack =
      fun sub => log sub ++ (match sub with | .code => code | .mapping => mapping | .stack => stack) := by
    funext sub
    cases sub with
    | code => rw [SupplyLog.add_of_ne _ (by decide), SupplyLog.add_of_ne _ (by decide), SupplyLog.add_self]
    | mapping =>
      rw [SupplyLog.add_of_ne _ (by decide), SupplyLog.add_self, SupplyLog.add_of_ne _ (by decide)]
    | stack =>
      rw [SupplyLog.add_self, SupplyLog.add_of_ne _ (by decide), SupplyLog.add_of_ne _ (by decide)]
  rw [hlog] at hinv
  refine ⟨_, map', T', fun sub => ?_, fun sub => ?_, hframes, hinv⟩
  · cases sub with
    | code => exact hcode
    | mapping => exact hmapping
    | stack => exact hstack
  · cases sub with
    | code => exact hcodePerms
    | mapping => exact hmappingPerms
    | stack => exact hstackPerms

/-- The leaf of a page that the calls added. -/
theorem SupplyInv.leaf {added : SupplyLog} (h : SupplyInv p t₀ m₀ (fun sub => log sub ++ added sub) map T k)
    {forwarded va : Nat} (hperms : ∀ page ∈ added sub, page.permissions = threadPerms t₀ forwarded)
    (hlo : subSpaceToAddr sub + 4096 * (log sub).length ≤ va)
    (hhi : va < subSpaceToAddr sub + 4096 * ((log sub).length + (added sub).length)) :
    ∃ w c, mmuWalk k.mem 4 (k.sched.tcbs p).pageTable va = some w ∧ w.LeafOf c ∧
      c.permissions = threadPerms t₀ forwarded := by
  obtain ⟨i, hi, hva⟩ : ∃ i < (added sub).length, va / 4096 = pageVirtAddr sub ((log sub).length + i) / 4096 := by
    have haligned := subSpaceToAddr_aligned sub
    refine ⟨va / 4096 - (subSpaceToAddr sub / 4096 + (log sub).length), ?_, ?_⟩
    · omega
    · unfold pageVirtAddr
      omega
  have hpage : pageOf va = pageOf (pageVirtAddr sub ((log sub).length + i)) := by
    unfold pageOf vaPrefix
    omega
  have hget : (log sub ++ added sub)[(log sub).length + i]? = some (added sub)[i] := by
    rw [List.getElem?_append_right (Nat.le_add_right ..), Nat.add_sub_cancel_left, List.getElem?_eq_getElem hi]
  obtain ⟨w, hw, hleaf⟩ := h.calls.mapped va _ (hpage ▸ h.logged sub _ _ hget)
  refine ⟨w, _, ?_, hleaf, hperms _ (List.getElem_mem hi)⟩
  rw [h.grown]
  exact hw

/-- The calls honour what they are asked exactly where it is passed on. -/
theorem SupplyInv.honoured_iff (h : SupplyInv p t₀ m₀ log map T k)
    (hlarge : ∀ va, InLowerHalf va → NoLarger 0 m₀ 4 t₀.pageTable va)
    (hroom : ∀ sub, pageVirtAddr sub ((log sub).length + info.pages sub) < subSpaceEnd sub)
    (he : threadSupplyNewMem (some p) info perms k = .ok (0, block, k')) (sub : AddrSubSpace) :
    Honoured p info perms k k' sub ↔ info.pages sub = 0 ∨ PassedOn t₀.privileged info perms sub := by
  obtain ⟨added, map', T', hlen, hperms, -, h'⟩ := h.newMem hlarge hroom he
  have hsize : (k'.sched.tcbs p).memory sub = (k.sched.tcbs p).memory sub + 4096 * info.pages sub := by
    rw [h'.sizes, h.sizes, List.length_append, hlen, Nat.mul_add]
  have hprivileged : (k'.sched.tcbs p).privileged = t₀.privileged := by rw [h'.grown]
  -- the leaves of the new pages, by the addresses the statement speaks of
  have hleaves : ∀ va, subSpaceToAddr sub + (k.sched.tcbs p).memory sub ≤ va →
      va < subSpaceToAddr sub + (k'.sched.tcbs p).memory sub →
        ∃ w c, mmuWalk k'.mem 4 (k'.sched.tcbs p).pageTable va = some w ∧ w.LeafOf c ∧
          c.permissions = threadPerms t₀ (info.forwarded sub) := by
    intro va hlo hhi
    rw [h.sizes] at hlo
    rw [hsize, h.sizes, ← hlen, ← Nat.mul_add] at hhi
    exact h'.leaf (hperms sub) hlo hhi
  constructor
  · intro ⟨hgrown, hall⟩
    rw [hsize, Nat.add_left_cancel_iff] at hgrown
    rcases Nat.eq_zero_or_pos (info.pages sub) with hzero | hpos
    · exact .inl hzero
    · right
      have hps : info.pageSize sub = defaultPageSize :=
        (Nat.eq_of_mul_eq_mul_left hpos ((Nat.mul_comm ..).trans hgrown)).symm
      obtain ⟨w, hw, -, hcarries⟩ := hall _ le_rfl (by rw [hsize]; omega)
      obtain ⟨w', c, hw', hleaf, hc⟩ := hleaves _ le_rfl (by rw [hsize]; omega)
      obtain rfl : w = w' := Option.some.inj (hw.symm.trans hw')
      rw [hprivileged] at hcarries
      obtain ⟨h1, h2, h3, h4, h5⟩ := (leafCarries_iff hleaf.leaf hc).1 hcarries
      exact ⟨hps, h1, h2, h3, h4, h5⟩
  · rintro (hzero | hp)
    · rw [hzero, Nat.mul_zero, Nat.add_zero] at hsize
      refine ⟨by rw [hsize, hzero, Nat.zero_mul, Nat.add_zero], fun va hlo hhi => ?_⟩
      rw [hsize] at hhi
      omega
    · refine ⟨by rw [hsize, hp.size, Nat.mul_comm]; rfl, fun va hlo hhi => ?_⟩
      obtain ⟨w, c, hw, hleaf, hc⟩ := hleaves va hlo hhi
      refine ⟨w, hw, by rw [hleaf.level, hp.size]; rfl, ?_⟩
      rw [hprivileged]
      exact (leafCarries_iff hleaf.leaf hc).2
        ⟨hp.writeable, hp.cacheDisabled, hp.writeThrough, hp.executionDisabled, hp.user⟩

end

/-! ## A thread after any supplies -/

section
variable {k k₀ k₁ k₂ : Kernel} {isPrivileged : Bool} {priority : BitVec 16} {p : TcbPtr} {log : SupplyLog} {T : Tables}
variable {info : AllocationInfo} {perms : PermissionInfo} {block : SupplyBlock}

theorem SupplyRun.honoured_iff (hT : Built memMapSource k.sched.cr3 T k.mem k.mmap)
    (hlarge : ∀ va, InLowerHalf va → NoLarger 0 k.mem 4 k.sched.cr3 va)
    (hcreate : createThread isPrivileged priority k = .ok (some p, k₀)) (hrun : SupplyRun p k₀ log k₁)
    (hroom : ∀ sub, subSpaceToAddr sub + (k₁.sched.tcbs p).memory sub + 4096 * info.pages sub < subSpaceEnd sub)
    (hsupply : threadSupplyNewMem (some p) info perms k₁ = .ok (0, block, k₂)) (sub : AddrSubSpace) :
    Honoured p info perms k₁ k₂ sub ↔ info.pages sub = 0 ∨ PassedOn isPrivileged info perms sub := by
  obtain ⟨addr, root, hc⟩ := created_of_some hT.apart.ok hcreate
  obtain ⟨map', T', hinv⟩ := hrun.created hc hT hlarge
  refine hinv.honoured_iff (hc.noLarger hT hlarge) (fun sub => ?_) hsupply sub
  have := hroom sub
  rw [hinv.sizes, Nat.add_assoc, ← Nat.mul_add] at this
  exact this

/-- A thread gets the pages and the permissions asked for exactly if what the calls pass on as the permissions agrees
with them, and the pages are of 4 KiB. -/
theorem supply_new_mem_honoured_iff (hT : Built memMapSource k.sched.cr3 T k.mem k.mmap)
    (hlarge : ∀ va, InLowerHalf va → NoLarger 0 k.mem 4 k.sched.cr3 va)
    (hcreate : createThread isPrivileged priority k = .ok (some p, k₀)) (hrun : SupplyRun p k₀ log k₁)
    (hroom : ∀ sub, subSpaceToAddr sub + (k₁.sched.tcbs p).memory sub + 4096 * info.pages sub < subSpaceEnd sub)
    (hsupply : threadSupplyNewMem (some p) info perms k₁ = .ok (0, block, k₂)) :
    (∀ sub, Honoured p info perms k₁ k₂ sub) ↔ ∀ sub, info.pages sub = 0 ∨ PassedOn isPrivileged info perms sub :=
  forall_congr' fun sub => hrun.honoured_iff hT hlarge hcreate hroom hsupply sub

end

/-- One page for the code, and for it alone. -/
def onePage : AllocationInfo := ⟨1, 4096, 0, 4096, 0, 4096⟩

/-- The code of a thread that may be written. -/
def writeableCode : PermissionInfo := ⟨writeable, 0, 0⟩

/-- The code of a thread that may be read. -/
def readOnlyCode : PermissionInfo := ⟨0, 0, 0⟩

theorem freshKernel_supplies (perms : PermissionInfo) (h : okAnd (createThread false 1 freshKernel) (fun r =>
      r.1.isSome && okAnd (threadSupplyNewMem r.1 onePage perms r.2) fun r' => r'.1 = 0) = true) :
    ∃ p k₀ block k₁, createThread false 1 freshKernel = .ok (some p, k₀) ∧
      threadSupplyNewMem (some p) onePage perms k₀ = .ok (0, block, k₁) ∧
      ∀ sub, subSpaceToAddr sub + (k₀.sched.tcbs p).memory sub + 4096 * onePage.pages sub < subSpaceEnd sub := by
  obtain ⟨p, k₀, addr, root, hcreate, hc, hr⟩ := freshKernel_created h
  obtain ⟨⟨r, block, k₁⟩, hcall, hzero⟩ := okAnd_eq_true.1 hr
  obtain rfl : r = 0 := of_decide_eq_true hzero
  refine ⟨p, k₀, block, k₁, hcreate, hcall, fun sub => ?_⟩
  rw [(hc.supplyInv freshKernel_built).sizes]
  cases sub <;> decide

/-- A page of code that nothing may write is what was asked for. -/
theorem supply_new_mem_honoured_onePage : ∃ p k₀ block k₁, createThread false 1 freshKernel = .ok (some p, k₀) ∧
    threadSupplyNewMem (some p) onePage readOnlyCode k₀ = .ok (0, block, k₁) ∧
    ((∀ sub, Honoured p onePage readOnlyCode k₀ k₁ sub) ↔
      ∀ sub, onePage.pages sub = 0 ∨ PassedOn false onePage readOnlyCode sub) := by
  obtain ⟨p, k₀, block, k₁, hcreate, hcall, hroom⟩ := freshKernel_supplies readOnlyCode (by decide +kernel)
  exact ⟨p, k₀, block, k₁, hcreate, hcall, supply_new_mem_honoured_iff freshKernel_built
    (fun va _ => freshKernel_noLarger va) hcreate .start hroom hcall⟩

/-- One page of code that may be written: the call passes on the number of pages, 1, which has no bit for that. -/
theorem supply_new_mem_readOnly : ∃ p k₀ block k₁, createThread false 1 freshKernel = .ok (some p, k₀) ∧
    threadSupplyNewMem (some p) onePage writeableCode k₀ = .ok (0, block, k₁) ∧
    ¬∀ sub, Honoured p onePage writeableCode k₀ k₁ sub := by
  obtain ⟨p, k₀, block, k₁, hcreate, hcall, hroom⟩ := freshKernel_supplies writeableCode (by decide +kernel)
  refine ⟨p, k₀, block, k₁, hcreate, hcall, fun hall => ?_⟩
  rcases (SupplyRun.start.honoured_iff freshKernel_built (fun va _ => freshKernel_noLarger va) hcreate hroom hcall .code).1
    (hall .code) with hzero | hp
  · cases hzero
  · exact absurd hp.writeable (by decide)

end Icarus.Processes

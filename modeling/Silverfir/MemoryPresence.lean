import Silverfir.Executed

/-! Memory 0. `in_place_dt_call` takes it from the address table of the instance, and the handlers
use it without a look; the validator asks for it in most of the instructions that touch memory. -/
namespace Silverfir

open InPlaceDt Validator
open Relation (ReflTransGen)

/-- The instructions that touch linear memory. -/
def Instr.touchesMemory : Instr → Bool
  | .memoryLoadStore _ _ _ | .memorySize | .memoryGrow | .memoryInit _ | .memoryCopy | .memoryFill => true
  | _ => false

/-- A module that has no memory does not use `memory.size` and `memory.grow`, for which the validator
does not ask for one. -/
def Module.SizesMemory (mod : Module) : Prop :=
  mod.memories = [] → ∀ fn ∈ mod.funcs, ∀ l ∈ instrs mod fn.code, l.instr ≠ .memorySize ∧ l.instr ≠ .memoryGrow

instance (mod : Module) : Decidable mod.SizesMemory :=
  inferInstanceAs (Decidable (mod.memories = [] → ∀ fn ∈ mod.funcs, ∀ l ∈ instrs mod fn.code,
    l.instr ≠ .memorySize ∧ l.instr ≠ .memoryGrow))

section Modules
variable {mod mod' : Module}

theorem needMem0_ok {x : R Ctx} {c : Ctx} (h : needMem0 mod x = .ok c) : mod.memories ≠ [] := by
  intro hnil
  rw [needMem0, hnil] at h
  cases h

/-- The other callbacks refuse a module without memory. -/
theorem onInstr_memory {i : Instr} {imm : Stream} {c c' : Ctx} (h : onInstr mod i imm c = .ok c')
    (hi : i.touchesMemory = true) (hsize : i ≠ .memorySize) (hgrow : i ≠ .memoryGrow) : mod.memories ≠ [] := by
  cases i with
  | memoryLoadStore op align offset => exact needMem0_ok h
  | memorySize => exact absurd rfl hsize
  | memoryGrow => exact absurd rfl hgrow
  | memoryInit idx =>
    obtain ⟨d, -, h⟩ := withIdx_ok h
    exact needMem0_ok h
  | memoryCopy | memoryFill => exact needMem0_ok h
  | _ => cases hi

/-- An accepted instruction of such a module has its memory. -/
theorem Module.SizesMemory.accepted (h : mod.SizesMemory) {fn : Func} (hfn : fn ∈ mod.funcs) {l : Located}
    (hl : Accepted mod fn l) (hi : l.instr.touchesMemory = true) : mod.memories ≠ [] := by
  intro hnil
  obtain ⟨hsize, hgrow⟩ := h hnil fn hfn l hl.1
  obtain ⟨c, c', hc⟩ := hl.2
  exact onInstr_memory hc hi hsize hgrow hnil

theorem validated_sizesMemory (h : mod.SizesMemory) (hval : validateFuncs mod.funcs.length mod = .ok mod') :
    mod'.SizesMemory := by
  intro hnil fn' hfn' l hl
  obtain ⟨fn, hfn, heq⟩ := validated_instrs hval hfn'
  rw [heq] at hl
  refine h ?_ fn hfn l hl
  rw [show mod.memories = mod.parsed.memories from rfl, ← (validateFuncs_ok hval).parsed]
  exact hnil

theorem touchesMemory_erase (i : Instr) : i.erase.touchesMemory = i.touchesMemory := by
  cases i <;> rfl

end Modules

/-! ### Linked instances -/

/-- Every entry of the address tables of an instance is set. -/
def Vm.Linked (vm : Vm) (k : ℕ) : Prop :=
  ∀ mi, vm.instances[k]? = some mi → ∀ kind i, i < mi.mod.space kind → ∃ a, (mi.addrs kind)[i]? = some (some a)

section Linked
variable {vm vm' : Vm} {k : ℕ}

theorem Vm.Linked.of_shape (h : vm.Linked k) (hs : vm'.shape = vm.shape) : vm'.Linked k := by
  intro mi' hmi' kind i hi
  obtain ⟨mi, hmi, he⟩ := inst_of_shape hs hmi'
  have haddrs : mi'.shape.addrs kind = mi.shape.addrs kind := by rw [he]
  rw [mod_of_shape he] at hi
  obtain ⟨a, ha⟩ := h mi hmi kind i hi
  refine ⟨a, ?_⟩
  cases kind <;> exact haddrs ▸ ha

theorem Vm.Linked.mem0 (h : vm.Linked k) {mi : ModuleInst} (hmi : vm.instances[k]? = some mi)
    (hne : mi.mod.memories ≠ [])
    {fr : Frame} (hfr : fr.fAddr.inst = k) : ∃ a, mem0Of vm fr = some a := by
  obtain ⟨a, ha⟩ := h mi hmi .memory 0 (List.length_pos_iff.mpr hne)
  refine ⟨a, ?_⟩
  have haddr : mi.mAddrs[0]? = some (some a) := ha
  rw [mem0Of, hfr, hmi, Option.bind_some, haddr, Option.join_some]

end Linked

/-! ### Runs -/

/-- A module whose jumps are safe, and that has a memory if it asks for its size or grows it. -/
structure Module.Remembering (mod : Module) : Prop where
  jumps : mod.JumpsSafe
  sizes : mod.SizesMemory

/-- If the step calls a function, its instance has been linked. -/
def EntersLinked (s s' : System) : Prop :=
  ∀ fr rest, s'.frames = fr :: rest → s.frames.length ≤ rest.length → s'.vm.Linked fr.fAddr.inst

def MemoryStep (pf : Platform) (s s' : System) : Prop := SysStep pf Module.Remembering s s' ∧ EntersLinked s s'

/-- What is true of the system in every state. -/
structure System.Remembering (s : System) : Prop where
  placed : s.Placed
  mods : ∀ mod ∈ s.vm.mods, mod.Trusted ∧ mod.SizesMemory
  frames : ∀ fr ∈ s.frames, s.vm.Linked fr.fAddr.inst

section Runs
variable {pf : Platform} {s s' : System} {vm : Vm} {r : Running}

theorem Moved.linked {fr : Frame} {rest : List Frame} {fn : Func} (h : Moved pf vm r fr rest fn s)
    (hframes : r.frames = fr :: rest) (hshape : s.vm.shape = vm.shape) (henter : EntersLinked ⟨vm, some r⟩ s)
    (hall : ∀ fr ∈ r.frames, vm.Linked fr.fAddr.inst) : ∀ fr ∈ s.frames, s.vm.Linked fr.fAddr.inst := by
  rw [hframes] at hall
  obtain ⟨hfr, hrest⟩ := List.forall_mem_cons.mp hall
  cases h with
  | stay _ hadv =>
    refine List.forall_mem_cons.mpr ⟨?_, fun fr' hfr' => (hrest fr' hfr').of_shape hshape⟩
    rw [hadv.fAddr]
    exact hfr.of_shape hshape
  | @call callee calleeFn params args new caller t hadv =>
    refine List.forall_mem_cons.mpr ⟨?_, List.forall_mem_cons.mpr ⟨?_, hrest⟩⟩
    · refine henter new (caller :: rest) rfl ?_
      rw [frames_of_running (s := ⟨vm, some r⟩) rfl, hframes]
      exact Nat.le_refl _
    · rw [hadv.fAddr]
      exact hfr
  | ret heq haddr =>
    subst heq
    obtain ⟨hcaller, hrest⟩ := List.forall_mem_cons.mp hrest
    refine List.forall_mem_cons.mpr ⟨?_, hrest⟩
    rw [haddr]
    exact hcaller
  | abort =>
    rw [frames_abort]
    simp
  | finish _ h =>
    rw [frames_finish h]
    simp

/-- The only frame of a call from the host. -/
theorem linked_of_call {vm' : Vm} {t : Thread} {a : Addr} {argv : List TypedValue} {cont : FuncType → Cont}
    (h : callInThread vm' t a argv cont = .ok r) (henter : EntersLinked ⟨vm, none⟩ ⟨vm', some r⟩) :
    ∀ fr ∈ r.frames, vm'.Linked fr.fAddr.inst := by
  obtain ⟨-, fn, fr, t', -, -, -, -, rfl⟩ := callInThread_ok h
  intro fr' hfr'
  rw [List.mem_singleton.mp hfr']
  exact henter fr [] rfl (Nat.le_refl 0)

theorem memoryStep_remembering (h : MemoryStep pf s s') (hs : s.Remembering) : s'.Remembering where
  placed := sysStep_placed h.1 hs.placed
  mods := sysStep_forall_mods
    (fun _ _ hm hval => ⟨hm.jumps.trusted hval, validated_sizesMemory hm.sizes hval⟩) h.1 hs.mods
  frames := by
    obtain ⟨hstep, henter⟩ := h
    cases hstep with
    | run h =>
      obtain ⟨fr, rest, fn, hframes, -, hmoved⟩ := runStep_moved h
      exact hmoved.linked hframes (runStep_shape h) henter hs.frames
    | invoke _ h => exact linked_of_call h henter
    | reset =>
      intro fr hfr
      cases hfr
    | instantiate hm h =>
      intro fr hfr
      obtain ⟨r, hr⟩ := running_of_active (List.ne_nil_of_mem hfr)
      obtain ⟨k, fAddr, hcall⟩ := (instantiateStep_ok h).2 r hr
      obtain ⟨vm', running⟩ := s'
      obtain rfl : running = some r := hr
      exact linked_of_call hcall henter fr hfr

theorem remembering_empty : System.Remembering {} where
  placed fr hfr := by cases hfr
  mods mod hm := by cases hm
  frames fr hfr := by cases hfr

end Runs

/-- In every run in which no module without memory asks for its size, and only functions of linked
instances are called, an instruction that touches memory finds memory 0. -/
theorem memory_present (pf : Platform) (s : System) (hrun : ReflTransGen (MemoryStep pf) {} s) (fr : Frame) (i : Instr)
    (hexec : s.Executes fr i) (hi : i.touchesMemory = true) : ∃ a, mem0Of s.vm fr = some a := by
  have hs := Run.invariant (p := System.Remembering) (fun _ _ hstep => memoryStep_remembering hstep) hrun
    remembering_empty
  obtain ⟨mi, fn, l, hmi, hfn, hl, herase⟩ := hexec.instr hs.placed fun mod hm => (hs.mods mod hm).1
  have hmod : mi.mod ∈ s.vm.mods := List.mem_map.mpr ⟨mi, List.mem_of_getElem? hmi, rfl⟩
  rw [← herase, touchesMemory_erase] at hi
  have hne := (hs.mods mi.mod hmod).2.accepted hfn hl hi
  obtain ⟨r, rest, -, -, hr, hframes, -⟩ := hexec
  have hlinked := hs.frames fr (by rw [frames_of_running hr, hframes]; exact List.mem_cons_self)
  exact hlinked.mem0 hmi hne rfl

/-- A start function that reads the size of the memory, which is there or not. -/
def sizeModule (memories : List Memory) : Module where
  names := [[]]
  formatVersion := 1
  funcTypes := [{}]
  funcs := [{ code := [0x3f, 0, 0x1a, 0x0b] }]
  memories := memories
  startFuncidx := some 0

theorem loaded_sizeModule : Loaded (sizeModule []) := by
  have hmod : moduleInit [0x00, 0x61, 0x73, 0x6d, 1, 0, 0, 0, 1, 4, 1, 0x60, 0, 0, 3, 2, 1, 0, 8, 1, 0,
      10, 7, 1, 5, 0, 0x3f, 0, 0x1a, 0x0b] [] = .ok (sizeModule []) := by rfl
  exact .init hmod

theorem loaded_sizeModule_memory : Loaded (sizeModule [{ lim := ⟨0, wasmMemMaxPages⟩ }]) := by
  have hmod : moduleInit [0x00, 0x61, 0x73, 0x6d, 1, 0, 0, 0, 1, 4, 1, 0x60, 0, 0, 3, 2, 1, 0, 5, 3, 1, 0, 0, 8, 1, 0,
      10, 7, 1, 5, 0, 0x3f, 0, 0x1a, 0x0b] [] = .ok (sizeModule [{ lim := ⟨0, wasmMemMaxPages⟩ }]) := by rfl
  exact .init hmod

/-- The VM when the start function is at its first instruction. -/
def sizeRun (memories : List Memory) (mAddrs : List (Option Addr)) : System where
  vm := { instances := [{ moduleInstNew 0 { sizeModule memories with
    funcs := [{ code := [0x3f, 0, 0x1a, 0x0b], stackSizeMax := 1 }] } with
      fAddrs := [some ⟨0, 0⟩], mAddrs := mAddrs }] }
  running := some ⟨[⟨⟨0, 0⟩, ⟨Regs.start, []⟩, [], 0⟩], { frameDepth := 1, stackSize := 1 }, .start 0⟩

theorem instantiate_sizeModule : instantiateStep idle {} 0 (sizeModule []) = .ok (sizeRun [] []) ∧
    instantiateStep idle {} 0 (sizeModule [{ lim := ⟨0, wasmMemMaxPages⟩ }]) =
      .ok (sizeRun [{ lim := ⟨0, wasmMemMaxPages⟩ }] [some ⟨0, 0⟩]) := by decide +kernel

/-- It is at `memory.size`. -/
theorem sizeRun_executes (memories : List Memory) (mAddrs : List (Option Addr)) :
    (sizeRun memories mAddrs).Executes ⟨⟨0, 0⟩, ⟨Regs.start, []⟩, [], 0⟩ .memorySize := by
  have hstep : actStep { code := [0x3f, 0, 0x1a, 0x0b], stackSizeMax := 1 } lo32 ⟨Regs.start, []⟩ =
      .ok (.plain .memorySize ⟨⟨2, 0⟩, []⟩) := rfl
  exact ⟨_, [], _, _, rfl, rfl, rfl, hstep⟩

theorem memory_present_size : ∃ a,
    mem0Of (sizeRun [{ lim := ⟨0, wasmMemMaxPages⟩ }] [some ⟨0, 0⟩]).vm ⟨⟨0, 0⟩, ⟨Regs.start, []⟩, [], 0⟩ = some a := by
  have hmod : (sizeModule [{ lim := ⟨0, wasmMemMaxPages⟩ }]).Remembering := by
    refine ⟨⟨loaded_sizeModule_memory, fun fn hfn _ => ?_⟩, by decide +kernel⟩
    rw [List.mem_singleton.mp hfn]
    decide +kernel
  have hlinked : EntersLinked {} (sizeRun [{ lim := ⟨0, wasmMemMaxPages⟩ }] [some ⟨0, 0⟩]) := by
    intro fr rest hframes _ mi hmi kind i hi
    cases hframes
    cases hmi
    cases kind with
    | func | memory =>
      obtain rfl : i = 0 := Nat.lt_one_iff.mp hi
      exact ⟨⟨0, 0⟩, rfl⟩
    | table | global => cases hi
  exact memory_present idle _ (.single ⟨.instantiate hmod instantiate_sizeModule.2, hlinked⟩) _ .memorySize
    (sizeRun_executes _ _) rfl

/-- The validator lets a module without memory ask for the size of it. -/
theorem size_without_memory : ∃ s fr, ReflTransGen (SysStep idle Loaded) {} s ∧ s.Executes fr .memorySize ∧
    mem0Of s.vm fr = none :=
  ⟨sizeRun [] [], _, .single (.instantiate loaded_sizeModule instantiate_sizeModule.1), sizeRun_executes [] [], rfl⟩

end Silverfir

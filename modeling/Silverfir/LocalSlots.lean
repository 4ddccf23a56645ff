import Silverfir.StackBounds
import Silverfir.ValueTypes

/-! The locals of the active calls: each call has as many slots as its function counts, in every run, and the
instructions on locals name one of them. -/
namespace Silverfir

open InPlaceDt Validator
open Relation (ReflTransGen)

/-! ### Handlers -/

/-- The program keeps the number of locals, also when it fails. -/
def Exec.KeepsSlots {α : Type} (n : ℕ) (m : Exec α) : Prop :=
  Eff.Triple (fun s => s.locals.length = n) m (fun _ s => s.locals.length = n) fun s => s.locals.length = n

namespace Exec.KeepsSlots

variable {α β : Type} {n k : ℕ}

theorem pure (a : α) : Exec.KeepsSlots n (Pure.pure a : Exec α) := Eff.Triple.pure fun _ hs => hs

theorem fail (e : Fault) : Exec.KeepsSlots n (Eff.fail e : Exec α) := Eff.Triple.fail fun _ hs => hs

theorem read (x : ExecState → R α) : Exec.KeepsSlots n (Eff.read x) :=
  Eff.Triple.read (fun _ _ hs _ => hs) fun _ hs => hs

theorem bind {m : Exec α} {f : α → Exec β} (hm : Exec.KeepsSlots n m) (hf : ∀ a, Exec.KeepsSlots n (f a)) :
    Exec.KeepsSlots n (m >>= f) := Eff.Triple.bind hm hf

theorem ite {p : Prop} [Decidable p] {m m' : Exec α} (hm : Exec.KeepsSlots n m) (hm' : Exec.KeepsSlots n m') :
    Exec.KeepsSlots n (if p then m else m') := Eff.Triple.ite (fun _ => hm) fun _ => hm'

/-- The VM is changed, and the results are left. -/
theorem modifyVm (g : Vm → Vm) (a : α) : Exec.KeepsSlots n (do InPlaceDt.modifyVm g; Pure.pure a) :=
  bind (.modify fun _ hs => hs) fun _ => pure a

theorem onVm (x : VmM α) : Exec.KeepsSlots n (InPlaceDt.onVm x) := by
  intro s hs
  have hlocals : (InPlaceDt.onVm x s).2.locals = s.locals := rfl
  constructor
  · intro a s' h
    rw [h] at hlocals
    rw [← hs, ← hlocals]
  · intro e s' h
    rw [h] at hlocals
    rw [← hs, ← hlocals]

theorem mem0 : Exec.KeepsSlots n (InPlaceDt.mem0 k) := bind (read _) fun _ => bind (read _) fun _ => pure _

theorem tabInst {idx : ℕ} : Exec.KeepsSlots n (InPlaceDt.tabInst k idx) :=
  bind (read _) fun _ => bind (read _) fun _ => pure _

theorem arg1 {args : List ValueU} {body : ValueU → Exec α} (h : ∀ a, Exec.KeepsSlots n (body a)) :
    Exec.KeepsSlots n (InPlaceDt.arg1 args body) := by
  unfold InPlaceDt.arg1
  split
  · exact h _
  · exact fail _

theorem arg2 {args : List ValueU} {body : ValueU → ValueU → Exec α} (h : ∀ a b, Exec.KeepsSlots n (body a b)) :
    Exec.KeepsSlots n (InPlaceDt.arg2 args body) := by
  unfold InPlaceDt.arg2
  split
  · exact h _ _
  · exact fail _

theorem arg3 {args : List ValueU} {body : ValueU → ValueU → ValueU → Exec α}
    (h : ∀ a b c, Exec.KeepsSlots n (body a b c)) : Exec.KeepsSlots n (InPlaceDt.arg3 args body) := by
  unfold InPlaceDt.arg3
  split
  · exact h _ _ _
  · exact fail _

/-- A local is overwritten, and the results are left. -/
theorem localSet (idx : ℕ) (v : ValueU) (results : List ValueU) :
    Exec.KeepsSlots n (do InPlaceDt.localSet idx v; Pure.pure results) := by
  refine bind (bind (read _) fun s => ite ?_ (fail _)) fun _ => pure _
  exact Eff.Triple.modify fun s hs => (List.length_set ..).trans hs

end Exec.KeepsSlots

open Exec.KeepsSlots in
/-- `local.set` and `local.tee` overwrite a local, and no other plain instruction touches them. -/
theorem effect_keepsSlots (pf : Platform) (k n : ℕ) (i : Instr) (args : List ValueU) :
    Exec.KeepsSlots n (effect pf k i args) := by
  cases i with
  | nop | i32Const | i64Const | f32Const | f64Const | refNull | opcodeFd => exact pure _
  | drop => exact arg1 fun _ => pure _
  | select | selectT => exact arg3 fun _ _ _ => pure _
  | localGet idx =>
    refine bind (read _) fun s => ?_
    split
    · exact fail _
    · exact pure _
  | localSet idx => exact arg1 fun v => localSet idx v []
  | localTee idx => exact arg1 fun v => localSet idx v [v]
  | globalGet idx => exact bind (read _) fun _ => bind (read _) fun _ => pure _
  | globalSet idx => exact arg1 fun v => bind (read _) fun _ => bind (read _) fun _ => modifyVm _ []
  | tableGet idx =>
    refine arg1 fun v => bind tabInst fun t => ?_
    simp only
    split
    · exact fail _
    · exact pure _
  | tableSet idx => exact arg2 fun ref v => bind tabInst fun t => ite (fail _) (modifyVm _ [])
  | memoryLoadStore op align offset =>
    simp only [effect]
    split
    · exact arg1 fun v => bind mem0 fun m => ite (fail _) (pure _)
    · exact arg2 fun v b => bind mem0 fun m => ite (fail _) (modifyVm _ [])
  | memorySize => exact bind mem0 fun m => pure _
  | memoryGrow => exact arg1 fun v => bind mem0 fun m => ite (modifyVm _ _) (pure _)
  | itestop op | iunop op | funop op | wrapop op | truncop op | convertop op | rankop op | reinterpretop op
  | extendop op | truncSat op => exact arg1 fun v => bind (read _) fun r => pure _
  | irelop op | ibinop op | frelop op | fbinop op => exact arg2 fun v w => bind (read _) fun r => pure _
  | refIsNull => exact arg1 fun v => pure _
  | refFunc fIdx => exact bind (read _) fun a => pure _
  | memoryInit dataIdx =>
    refine arg3 fun n src dst => bind mem0 fun m => bind (read _) fun mi => ?_
    split
    · exact ite (fail _) (ite (pure _) (ite (fail _) (modifyVm _ [])))
    · exact fail _
  | memoryCopy => exact arg3 fun n src dst => bind mem0 fun m => ite (fail _) (modifyVm _ [])
  | memoryFill => exact arg3 fun n v dst => bind mem0 fun m => ite (fail _) (modifyVm _ [])
  | dataDrop idx => exact modifyVm _ []
  | elemDrop idx => exact modifyVm _ []
  | tableInit elemIdx tableIdx =>
    refine arg3 fun n src dst => bind tabInst fun t => bind (read _) fun mi => ?_
    split
    · exact ite (fail _) (ite (pure _) (ite (fail _) (bind (read _) fun refs => bind (onVm _) fun _ => pure _)))
    · exact fail _
  | tableCopy dst src =>
    exact arg3 fun n so d => bind tabInst fun t => bind tabInst fun t' => ite (fail _) (modifyVm _ [])
  | tableGrow idx => exact arg2 fun n ref => bind tabInst fun t => ite (pure _) (modifyVm _ _)
  | tableSize idx => exact bind tabInst fun t => pure _
  | tableFill idx =>
    exact arg3 fun n ref off => bind tabInst fun t => ite (fail _) (ite (fail _) (modifyVm _ []))
  | _ => exact fail _

/-! ### Frames -/

/-- A call has the slots that its function counts. -/
def Frame.Slotted (vm : Vm) (fr : Frame) : Prop :=
  ∃ fn, vm.func fr.fAddr = .ok fn ∧ fr.locals.length = fn.localCount

section Pass
variable {pf : Platform} {mods : Module → Prop} {vm vm' : Vm} {r : Running} {fr fr' : Frame} {rest : List Frame}
  {fn : Func} {s s' : System}

theorem Frame.Slotted.of_same (h : fr.Slotted vm) (haddr : fr'.fAddr = fr.fAddr)
    (hlen : fr'.locals.length = fr.locals.length) : fr'.Slotted vm := by
  obtain ⟨fn, hfn, hcount⟩ := h
  refine ⟨fn, ?_, hlen.trans hcount⟩
  rw [haddr]
  exact hfn

theorem Frame.Slotted.of_func (h : fr.Slotted vm) (hfunc : ∀ a fn, vm.func a = .ok fn → vm'.func a = .ok fn) :
    fr.Slotted vm' := by
  obtain ⟨fn, hfn, hcount⟩ := h
  exact ⟨fn, hfunc _ _ hfn, hcount⟩

/-- A new frame, whose declared locals follow the parameters. -/
theorem enter_slotted {t t' : Thread} {callee : Addr} {calleeFn : Func} {params : List ValueU} {args : ℕ}
    (hfn : vm.func callee = .ok calleeFn) (hparams : params.length = calleeFn.fnType.paramCount)
    (h : enter vm t callee params args = .ok (fr, t')) : fr.Slotted vm := by
  obtain ⟨-, -, fn, hfn', hle, rfl, -⟩ := enter_ok h
  obtain rfl : calleeFn = fn := Except.ok.inj (hfn.symm.trans hfn')
  refine ⟨calleeFn, hfn, ?_⟩
  rw [List.length_append, List.length_replicate, hparams]
  omega

theorem callFunc_slotted {a : Act ValueU} {callee : Addr} {calleeFn : Func} {params : List ValueU} {args : ℕ}
    (hfn : vm.func callee = .ok calleeFn) (hparams : params.length = calleeFn.fnType.paramCount)
    (hall : ∀ fr' ∈ fr :: rest, fr'.Slotted vm)
    (h : callFunc pf vm r fr rest a callee calleeFn params args = .ok s) : ∀ fr' ∈ s.frames, fr'.Slotted vm := by
  obtain ⟨hfr, hrest⟩ := List.forall_mem_cons.mp hall
  rw [callFunc] at h
  split at h
  · obtain ⟨vm1, stack, -, rfl⟩ | rfl := hostCall_ok h
    · exact List.forall_mem_cons.mpr ⟨hfr.of_same rfl rfl, hrest⟩
    · rw [frames_abort]
      simp
  · obtain ⟨⟨new, t⟩, hent, h⟩ | rfl := checked_ok h
    · cases h
      have hnew := enter_slotted hfn hparams hent
      exact List.forall_mem_cons.mpr ⟨hnew, List.forall_mem_cons.mpr ⟨hfr.of_same rfl rfl, hrest⟩⟩
    · rw [frames_abort]
      simp

theorem opPlain_slotted {i : Instr} {a : Act ValueU} (hall : ∀ fr' ∈ fr :: rest, fr'.Slotted vm)
    (h : opPlain pf vm r fr rest i a = .ok s) : ∀ fr' ∈ s.frames, fr'.Slotted vm := by
  obtain ⟨hfr, hrest⟩ := List.forall_mem_cons.mp hall
  rw [opPlain] at h
  split at h
  · simp at h
  · have hkeeps := effect_keepsSlots pf fr.fAddr.inst fr.locals.length i (a.stack.take (operandCount i))
      ⟨vm, fr.locals⟩ rfl
    split at h
    · next results s1 heff =>
      cases h
      exact List.forall_mem_cons.mpr ⟨hfr.of_same rfl (hkeeps.1 _ _ heff), hrest⟩
    · cases h
      rw [frames_abort]
      simp
    · simp at h

theorem opFinish_slotted {stack : List ValueU} (hall : ∀ fr' ∈ rest, fr'.Slotted vm)
    (h : opFinish vm r rest fn stack = .ok s) : ∀ fr' ∈ s.frames, fr'.Slotted vm := by
  rw [opFinish] at h
  split at h
  · simp at h
  · split at h
    · rw [frames_finish h]
      simp
    · next caller rest' =>
      cases h
      obtain ⟨hcaller, hrest⟩ := List.forall_mem_cons.mp hall
      exact List.forall_mem_cons.mpr ⟨hcaller.of_same rfl rfl, hrest⟩

/-- A pass keeps the number of slots of every call. -/
theorem runStep_slotted (h : runStep pf vm r = .ok s) (hall : ∀ fr ∈ r.frames, fr.Slotted vm) :
    ∀ fr ∈ s.frames, fr.Slotted vm := by
  rw [runStep] at h
  split at h
  · simp at h
  · next fr rest hframes =>
    rw [hframes] at hall
    obtain ⟨hfr, hrest⟩ := List.forall_mem_cons.mp hall
    simp only [bind_eq_ok] at h
    obtain ⟨fn, hfn, out, hout, h⟩ := h
    split at h
    · cases h
      rw [frames_abort]
      simp
    · cases h
      exact List.forall_mem_cons.mpr ⟨hfr.of_same rfl rfl, hrest⟩
    · exact opFinish_slotted hrest h
    · simp only [opCall, bind_eq_ok] at h
      obtain ⟨callee, -, calleeFn, hcallee, ⟨params, a'⟩, hpop, h⟩ := h
      exact callFunc_slotted hcallee (popParams_ok hpop).2 hall h
    · rw [opCallIndirect] at h
      split at h
      · simp at h
      · obtain ⟨callee, -, h⟩ | rfl := checked_ok h
        · simp only [bind_eq_ok] at h
          obtain ⟨calleeFn, hcallee, ⟨params, a'⟩, hpop, h⟩ := h
          exact callFunc_slotted hcallee (popParams_ok hpop).2 hall h
        · rw [frames_abort]
          simp
    · exact opPlain_slotted hall h

theorem callInThread_slotted {t : Thread} {fAddr : Addr} {argv : List TypedValue} {cont : FuncType → Cont}
    (h : callInThread vm t fAddr argv cont = .ok r) : ∀ fr ∈ r.frames, fr.Slotted vm := by
  obtain ⟨-, fn, fr, t', hfn, hcount, -, hent, rfl⟩ := callInThread_ok h
  intro fr' hfr'
  rw [List.mem_singleton.mp hfr']
  refine enter_slotted hfn ?_ hent
  rw [List.length_map, hcount]

theorem sysStep_slotted (h : SysStep pf mods s s') (hs : ∀ fr ∈ s.frames, fr.Slotted s.vm) :
    ∀ fr ∈ s'.frames, fr.Slotted s'.vm := by
  have hfunc : ∀ a fn, s.vm.func a = .ok fn → s'.vm.func a = .ok fn := fun _ _ hfn => sysStep_func h hfn
  cases h with
  | run h =>
    intro fr hfr
    exact (runStep_slotted h hs fr hfr).of_func hfunc
  | invoke _ h => exact callInThread_slotted h
  | reset =>
    intro fr hfr
    cases hfr
  | instantiate _ h =>
    intro fr hfr
    obtain ⟨r, hr⟩ := running_of_active (List.ne_nil_of_mem hfr)
    obtain ⟨k, fAddr, hcall⟩ := (instantiateStep_ok h).2 r hr
    rw [frames_of_running hr] at hfr
    exact callInThread_slotted hcall fr hfr

theorem run_slotted (h : ReflTransGen (SysStep pf mods) {} s) : ∀ fr ∈ s.frames, fr.Slotted s.vm := by
  refine Run.invariant (p := fun s : System => ∀ fr ∈ s.frames, fr.Slotted s.vm) ?_ h ?_
  · intro x y hstep hx
    exact sysStep_slotted hstep hx
  · intro fr hfr
    cases hfr

end Pass

/-! ### Instructions on locals -/

/-- The local that an instruction reads or overwrites. -/
def Instr.local? : Instr → Option ℕ
  | .localGet idx | .localSet idx | .localTee idx => some idx
  | _ => none

theorem local?_erase (i : Instr) : i.erase.local? = i.local? := by cases i <;> rfl

/-- `local_count` is what the type and the declarations of the function say, which 32 bits can hold. -/
def Func.CountsLocals (f : Func) : Prop := f.localCount = f.fnType.paramCount + f.localTypes.length

instance (f : Func) : Decidable f.CountsLocals :=
  inferInstanceAs (Decidable (f.localCount = f.fnType.paramCount + f.localTypes.length))

/-- What the slots of the locals rest on. -/
structure SlotSafe (mod : Module) (f : Func) : Prop where
  jumps : JumpSafe mod f
  locals : f.CountsLocals

theorem SlotSafe.parsed {mod : Module} {f : Func} (h : SlotSafe mod f) : SlotSafe mod.parsed f :=
  ⟨jumpSafe_parsed.mpr h.jumps, h.locals⟩

/-- The validator lets a body name the locals of its type and its declarations only. -/
theorem onInstr_local {mod : Module} {i : Instr} {imm : Stream} {c c' : Ctx} {idx : ℕ} (hi : i.local? = some idx)
    (h : onInstr mod i imm c = .ok c') : idx < c.locals.length := by
  cases i with
  | localGet | localSet | localTee =>
    cases hi
    obtain ⟨t, ht, -⟩ := withIdx_ok h
    exact (List.getElem?_eq_some_iff.mp ht).1
  | _ => cases hi

theorem typesOf_length_le (count : ℕ) (types : Str) : (typesOf count types).length ≤ count := by
  unfold typesOf
  cases hts : parseTypes count types with
  | error => exact Nat.zero_le _
  | ok ts => exact (parseTypes_length hts).le

/-- The locals of validation are among those that are counted. -/
theorem SlotSafe.locals_le {mod : Module} {f : Func} (h : SlotSafe mod f) {p : ℕ} {c : Ctx} (hr : Reach mod f (p, c)) :
    c.locals.length ≤ f.localCount := by
  have hlocals : c.locals = localsOf f := hr.locals_eq
  have hparams := typesOf_length_le f.fnType.paramCount f.fnType.params
  rw [hlocals, localsOf, List.length_append, h.locals]
  omega

/-- A start function that reads its only local. -/
def localModule : Module where
  names := [[]]
  formatVersion := 1
  funcTypes := [{}]
  funcs := [{ localCount := 1, localTypes := [.i32], code := [0x20, 0, 0x1a, 0x0b] }]
  startFuncidx := some 0

theorem loaded_localModule : Loaded localModule := by
  have hmod : moduleInit [0x00, 0x61, 0x73, 0x6d, 1, 0, 0, 0, 1, 4, 1, 0x60, 0, 0, 3, 2, 1, 0, 8, 1, 0,
      10, 9, 1, 7, 1, 1, 0x7f, 0x20, 0, 0x1a, 0x0b] [] = .ok localModule := by rfl
  exact .init hmod

/-- The start function at its first instruction. -/
def localRun : System where
  vm := { instances := [{ moduleInstNew 0 { localModule with
    funcs := [{ localCount := 1, localTypes := [.i32], code := [0x20, 0, 0x1a, 0x0b], stackSizeMax := 1 }] } with
      fAddrs := [some ⟨0, 0⟩] }] }
  running := some ⟨[⟨⟨0, 0⟩, ⟨Regs.start, []⟩, [0], 1⟩], { frameDepth := 1, stackSize := 1 }, .start 0⟩

end Silverfir

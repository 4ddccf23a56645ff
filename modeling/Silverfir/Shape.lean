import Silverfir.Store
import Silverfir.Arity
import Silverfir.Lib.Stack
import Silverfir.Lib.Run

/-! What programs do not change: the modules, the address tables, and the kinds of the tables,
memories and globals. Only the contents vary. -/
namespace Silverfir

open InPlaceDt

/-- An instance without the contents of its tables, memories and globals. -/
def ModuleInst.shape (mi : ModuleInst) : ModuleInst :=
  { mi with
    state := .uninitialized
    tables := mi.tables.map ({ · with tdata := [] })
    droppedElements := []
    memories := mi.memories.map ({ · with mdata := [] })
    droppedData := []
    globals := mi.globals.map ({ · with gvalue := 0 }) }

namespace Vm

def shape (vm : Vm) : List ModuleInst := vm.instances.map (·.shape)

theorem shape_modifyInst {f : ModuleInst → ModuleInst} (h : ∀ mi, (f mi).shape = mi.shape) (k : ℕ) (vm : Vm) :
    (vm.modifyInst k f).shape = vm.shape := ListStack.map_modify h vm.instances k

theorem shape_withState (vm : Vm) (k : ℕ) (st : ModuleInstState) :
    (vm.modifyInst k ({ · with state := st })).shape = vm.shape := by
  refine shape_modifyInst ?_ k vm
  intro mi
  rfl

theorem shape_setTable (a : Addr) (tdata : List ValueU) (vm : Vm) : (vm.setTable a tdata).shape = vm.shape := by
  refine shape_modifyInst (fun mi => ?_) _ _
  simp only [ModuleInst.shape]
  congr 1
  apply ListStack.map_modify
  intro x
  rfl

theorem shape_setMemory (a : Addr) (mdata : List UInt8) (vm : Vm) : (vm.setMemory a mdata).shape = vm.shape := by
  refine shape_modifyInst (fun mi => ?_) _ _
  simp only [ModuleInst.shape]
  congr 1
  apply ListStack.map_modify
  intro x
  rfl

theorem shape_setGlobal (a : Addr) (v : ValueU) (vm : Vm) : (vm.setGlobal a v).shape = vm.shape := by
  refine shape_modifyInst (fun mi => ?_) _ _
  simp only [ModuleInst.shape]
  congr 1
  apply ListStack.map_modify
  intro x
  rfl

/-- What a part of an instance is that its shape shows. -/
theorem map_eq_of_shape {α : Type} {g : ModuleInst → α} (hg : ∀ mi, g mi.shape = g mi) {vm vm' : Vm}
    (h : vm.shape = vm'.shape) (k : ℕ) : vm.instances[k]?.map g = vm'.instances[k]?.map g := by
  have hk : vm.shape[k]? = vm'.shape[k]? := by rw [h]
  simp only [shape, List.getElem?_map] at hk
  have := congrArg (Option.map g) hk
  simp only [Option.map_map] at this
  have hcomp : g ∘ ModuleInst.shape = g := funext hg
  rwa [hcomp] at this

theorem mod_eq_of_shape {vm vm' : Vm} (h : vm.shape = vm'.shape) (k : ℕ) :
    vm.instances[k]?.map (·.mod) = vm'.instances[k]?.map (·.mod) := map_eq_of_shape (fun _ => rfl) h k

theorem func_eq_of_shape {vm vm' : Vm} (h : vm.shape = vm'.shape) (a : Addr) : vm.func a = vm'.func a := by
  have hm := mod_eq_of_shape h a.inst
  have hb : ∀ w : Vm, w.instances[a.inst]?.bind (·.mod.funcs[a.idx]?) =
      (w.instances[a.inst]?.map (·.mod)).bind (·.funcs[a.idx]?) := by
    intro w
    cases w.instances[a.inst]? <;> rfl
  unfold func
  rw [hb vm, hb vm', hm]

theorem addr_eq_of_shape {pick : ModuleInst → List (Option Addr)} (hp : ∀ mi, pick mi.shape = pick mi)
    {vm vm' : Vm} (h : vm.shape = vm'.shape) (k idx : ℕ) : vm.addr pick k idx = vm'.addr pick k idx := by
  have hm := map_eq_of_shape hp h k
  have hb : ∀ w : Vm, w.instances[k]?.bind (fun mi => (pick mi)[idx]?) =
      (w.instances[k]?.map pick).bind (·[idx]?) := by
    intro w
    cases w.instances[k]? <;> rfl
  unfold addr
  rw [hb vm, hb vm', hm]

end Vm

/-! ### Writes keep the shape -/

theorem StoreStep.shape {pf : Platform} {vm vm' : Vm} (h : StoreStep pf vm vm') : vm'.shape = vm.shape := by
  cases h with
  | global => exact Vm.shape_setGlobal _ _ vm
  | table => exact Vm.shape_setTable _ _ vm
  | memory | host => exact Vm.shape_setMemory _ _ vm
  | drop =>
    refine Vm.shape_modifyInst ?_ _ vm
    intro mi
    rfl

theorem stores_shape {pf : Platform} {vm vm' : Vm} (h : Relation.ReflTransGen (StoreStep pf) vm vm') :
    vm'.shape = vm.shape :=
  Run.invariant (p := fun w => w.shape = vm.shape) (fun _ _ hstep hs => hstep.shape.trans hs) h rfl

/-- The state of every instance. -/
def Vm.states (vm : Vm) : List ModuleInstState := vm.instances.map (·.state)

theorem Vm.states_modifyInst {f : ModuleInst → ModuleInst} (h : ∀ mi, (f mi).state = mi.state) (k : ℕ) (vm : Vm) :
    (vm.modifyInst k f).states = vm.states := ListStack.map_modify h vm.instances k

theorem StoreStep.states {pf : Platform} {vm vm' : Vm} (h : StoreStep pf vm vm') : vm'.states = vm.states := by
  cases h <;> exact Vm.states_modifyInst (by intro mi; rfl) _ vm

theorem stores_states {pf : Platform} {vm vm' : Vm} (h : Relation.ReflTransGen (StoreStep pf) vm vm') :
    vm'.states = vm.states :=
  Run.invariant (p := fun w => w.states = vm.states) (fun _ _ hstep hs => hstep.states.trans hs) h rfl

/-! ### Plain instructions keep the shape -/

section Programs

variable {pf : Platform} {k : ℕ} {S : List ModuleInst}

/-- A handler that keeps the shape, with `n` results. -/
def Exec.Keeps (S : List ModuleInst) (n : ℕ) (m : Exec (List ValueU)) : Prop :=
  Eff.Triple (fun s => s.vm.shape = S) m (fun results s => results.length = n ∧ s.vm.shape = S)
    (fun s => s.vm.shape = S)

theorem keptBy_shape (i : Instr) : KeptBy (fun vm => vm.shape = S) i where
  global _ hs := (Vm.shape_setGlobal _ _ _).trans hs
  table _ hs _ _ := (Vm.shape_setTable _ _ _).trans hs
  memory hs _ _ := (Vm.shape_setMemory _ _ _).trans hs
  dropData hs := by
    refine (Vm.shape_modifyInst ?_ _ _).trans hs
    intro mi
    rfl
  dropElem hs := by
    refine (Vm.shape_modifyInst ?_ _ _).trans hs
    intro mi
    rfl

/-- No plain instruction changes the shape of the VM, and each leaves as many results as it
should. -/
theorem effect_keeps (i : Instr) (args : List ValueU) : Exec.Keeps S (resultCount i) (effect pf k i args) :=
  effect_writes (keptBy_shape i) args

end Programs

end Silverfir

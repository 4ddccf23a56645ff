import Silverfir.Immutable
import Silverfir.Grounded

/-! Isolation. Code changes what is in the address tables of its own instance, and nothing else. -/
namespace Silverfir

open InPlaceDt
open Relation (ReflTransGen)

/-! ### Definitions and what they hold -/

/-- What an instance holds for one of the definitions of its module. -/
inductive Content where
  | func (fn : Func)
  | table (t : TableInst)
  | memory (m : MemoryInst)
  | global (g : GlobalInst)
  deriving DecidableEq, Repr

def Vm.content (vm : Vm) : ExternalKind → Addr → Option Content
  | .func, a => (vm.part (·.mod.funcs) a).map .func
  | .table, a => (vm.part (·.tables) a).map .table
  | .memory, a => (vm.part (·.memories) a).map .memory
  | .global, a => (vm.part (·.globals) a).map .global

/-- The address tables of instance `k` lead to the definition. -/
def Vm.Reaches (vm : Vm) (k : ℕ) (kind : ExternalKind) (a : Addr) : Prop :=
  ∃ (mi : ModuleInst) (i : ℕ), vm.instances[k]? = some mi ∧ (mi.addrs kind)[i]? = some (some a)

/-- A property of the VM that writes through the address tables of instance `k` keep, as they are in `vm0`. -/
structure KeptThrough (W : Vm → Prop) (vm0 : Vm) (k : ℕ) : Prop where
  shape {vm} (hw : W vm) : vm.shape = vm0.shape
  global {vm i a v} (hw : W vm) (ha : vm0.addr (·.gAddrs) k i = .ok a) : W (vm.setGlobal a v)
  table {vm i a tdata} (hw : W vm) (ha : vm0.addr (·.tAddrs) k i = .ok a) : W (vm.setTable a tdata)
  memory {vm i a mdata} (hw : W vm) (ha : vm0.addr (·.mAddrs) k i = .ok a) : W (vm.setMemory a mdata)
  dropElem {vm idx} (hw : W vm) :
    W (vm.modifyInst k fun mi => { mi with droppedElements := mi.droppedElements.set idx true })
  dropData {vm idx} (hw : W vm) :
    W (vm.modifyInst k fun mi => { mi with droppedData := mi.droppedData.set idx true })

/-- A program that keeps a property of the VM, also when it fails. -/
def VmM.Keeps {α : Type} (W : Vm → Prop) (m : VmM α) : Prop := Eff.Triple W m (fun _ => W) W

def Exec.KeepsVm {α : Type} (W : Vm → Prop) (m : Exec α) : Prop :=
  Eff.Triple (fun s => W s.vm) m (fun _ s => W s.vm) fun s => W s.vm

section Rules
variable {α β : Type} {pf : Platform} {W : Vm → Prop} {vm0 : Vm} {k : ℕ}

namespace Exec.KeepsVm

theorem pure (a : α) : Exec.KeepsVm W (Pure.pure a : Exec α) := Eff.Triple.pure fun _ hs => hs

theorem fail (e : Fault) : Exec.KeepsVm W (Eff.fail e : Exec α) := Eff.Triple.fail fun _ hs => hs

theorem read (x : ExecState → R α) : Exec.KeepsVm W (Eff.read x) := Eff.Triple.read (fun _ _ hs _ => hs) fun _ hs => hs

theorem bind {m : Exec α} {f : α → Exec β} (hm : Exec.KeepsVm W m) (hf : ∀ a, Exec.KeepsVm W (f a)) :
    Exec.KeepsVm W (m >>= f) := Eff.Triple.bind hm hf

theorem ite {p : Prop} [Decidable p] {m m' : Exec α} (hm : Exec.KeepsVm W m) (hm' : Exec.KeepsVm W m') :
    Exec.KeepsVm W (if p then m else m') := Eff.Triple.ite (fun _ => hm) fun _ => hm'

/-- The VM is changed, and the results are left. -/
theorem modifyVm {g : Vm → Vm} (hg : ∀ vm, W vm → W (g vm)) (a : α) :
    Exec.KeepsVm W (do InPlaceDt.modifyVm g; Pure.pure a) :=
  bind (.modify fun s hs => hg s.vm hs) fun _ => pure a

theorem onVm {x : VmM α} (hx : VmM.Keeps W x) : Exec.KeepsVm W (InPlaceDt.onVm x) := by
  intro s hs
  obtain ⟨hok, herr⟩ := hx s.vm hs
  unfold InPlaceDt.onVm
  cases hres : x s.vm with
  | mk res vm =>
    constructor
    · intro a s' h
      cases h
      exact hok a vm hres
    · intro e s' h
      cases h
      exact herr e vm hres

theorem arg1 {args : List ValueU} {body : ValueU → Exec α} (h : ∀ a, Exec.KeepsVm W (body a)) :
    Exec.KeepsVm W (InPlaceDt.arg1 args body) := by
  unfold InPlaceDt.arg1
  split
  · exact h _
  · exact fail _

theorem arg2 {args : List ValueU} {body : ValueU → ValueU → Exec α} (h : ∀ a b, Exec.KeepsVm W (body a b)) :
    Exec.KeepsVm W (InPlaceDt.arg2 args body) := by
  unfold InPlaceDt.arg2
  split
  · exact h _ _
  · exact fail _

theorem arg3 {args : List ValueU} {body : ValueU → ValueU → ValueU → Exec α}
    (h : ∀ a b c, Exec.KeepsVm W (body a b c)) : Exec.KeepsVm W (InPlaceDt.arg3 args body) := by
  unfold InPlaceDt.arg3
  split
  · exact h _ _ _
  · exact fail _

theorem localSet (idx : ℕ) (v : ValueU) (results : List ValueU) :
    Exec.KeepsVm W (do InPlaceDt.localSet idx v; Pure.pure results) :=
  bind (bind (read _) fun _ => ite (.modify fun _ hs => hs) (fail _)) fun _ => pure _

end Exec.KeepsVm

/-- An entry of an address table is as it was in `vm0`. -/
theorem KeptThrough.addr_eq (hw : KeptThrough W vm0 k) {pick : ModuleInst → List (Option Addr)}
    (hpick : ∀ mi : ModuleInst, pick mi.shape = pick mi) {vm : Vm} (h : W vm) {i : ℕ} {a : Addr}
    (ha : vm.addr pick k i = .ok a) : vm0.addr pick k i = .ok a := by
  rw [← Vm.addr_eq_of_shape hpick (hw.shape h)]
  exact ha

open Exec.KeepsVm

/-- `mem_inst0` is read, through the address table. -/
theorem KeptThrough.mem0 (hw : KeptThrough W vm0 k) {f : Addr × MemoryInst → Exec α}
    (hf : ∀ a m, vm0.addr (·.mAddrs) k 0 = .ok a → Exec.KeepsVm W (f (a, m))) :
    Exec.KeepsVm W (InPlaceDt.mem0 k >>= f) := by
  rw [InPlaceDt.mem0, Eff.bind_assoc]
  refine Eff.Triple.bind (Q := fun a s => W s.vm ∧ vm0.addr (·.mAddrs) k 0 = .ok a) ?_ fun a => ?_
  · refine .read (fun s a hs ha => ⟨hs, ?_⟩) fun _ hs => hs
    exact hw.addr_eq (fun _ => rfl) hs ha
  · intro s hs
    have hrest : Exec.KeepsVm W (ofVm (fun vm => vm.memory a) >>= fun m => Pure.pure (a, m) >>= f) :=
      bind (read _) fun m => hf a m hs.2
    rw [Eff.bind_assoc]
    exact hrest s hs.1

theorem KeptThrough.tabInst (hw : KeptThrough W vm0 k) {idx : ℕ} {f : Addr × TableInst → Exec α}
    (hf : ∀ a t, vm0.addr (·.tAddrs) k idx = .ok a → Exec.KeepsVm W (f (a, t))) :
    Exec.KeepsVm W (InPlaceDt.tabInst k idx >>= f) := by
  rw [InPlaceDt.tabInst, Eff.bind_assoc]
  refine Eff.Triple.bind (Q := fun a s => W s.vm ∧ vm0.addr (·.tAddrs) k idx = .ok a) ?_ fun a => ?_
  · refine .read (fun s a hs ha => ⟨hs, ?_⟩) fun _ hs => hs
    exact hw.addr_eq (fun _ => rfl) hs ha
  · intro s hs
    have hrest : Exec.KeepsVm W (ofVm (fun vm => vm.table a) >>= fun t => Pure.pure (a, t) >>= f) :=
      bind (read _) fun t => hf a t hs.2
    rw [Eff.bind_assoc]
    exact hrest s hs.1

theorem KeptThrough.globalSet (hw : KeptThrough W vm0 k) (idx : ℕ) (v : ValueU) :
    Exec.KeepsVm W (InPlaceDt.globalSet k idx v) := by
  refine Eff.Triple.bind (Q := fun a s => W s.vm ∧ vm0.addr (·.gAddrs) k idx = .ok a) ?_ fun a => ?_
  · refine .read (fun s a hs ha => ⟨hs, ?_⟩) fun _ hs => hs
    exact hw.addr_eq (fun _ => rfl) hs ha
  · intro s hs
    have hrest : Exec.KeepsVm W (do
        let _ ← ofVm fun vm => vm.global a
        InPlaceDt.modifyVm (Vm.setGlobal a v)
        Pure.pure ([] : List ValueU)) :=
      bind (read _) fun _ => modifyVm (fun vm hvm => hw.global hvm hs.2) []
    exact hrest s hs.1

/-- The entries of one table are written. -/
theorem KeptThrough.putRefs (hw : KeptThrough W vm0 k) {idx : ℕ} {a : Addr} (ha : vm0.addr (·.tAddrs) k idx = .ok a)
    (i : ℕ) (refs : List (Vm → R ValueU)) : VmM.Keeps W (Silverfir.putRefs a i refs) := by
  induction refs generalizing i with
  | nil => exact Eff.Triple.pure fun _ h => h
  | cons ref refs ih =>
    have hput : VmM.Keeps W (putRef a i ref) := by
      refine Eff.Triple.bind (Q := fun _ => W) (.read (fun _ _ h _ => h) fun _ h => h) fun v => ?_
      refine Eff.Triple.bind (Q := fun _ => W) (.read (fun _ _ h _ => h) fun _ h => h) fun t => ?_
      exact .ite (fun _ => .modify fun vm h => hw.table h ha) fun _ => .fail fun _ h => h
    exact Eff.Triple.bind hput fun _ => ih (i + 1)

/-- The plain instructions write through the address tables of the instance of their function. -/
theorem effect_keepsVm (hw : KeptThrough W vm0 k) (i : Instr) (args : List ValueU) :
    Exec.KeepsVm W (effect pf k i args) := by
  cases i with
  | nop | i32Const | i64Const | f32Const | f64Const | refNull | opcodeFd => exact pure _
  | drop => exact arg1 fun _ => pure _
  | select | selectT => exact arg3 fun _ _ _ => pure _
  | localGet idx =>
    refine bind (read _) fun s => ?_
    split
    · exact fail _
    · exact pure _
  | localSet idx => exact arg1 fun v => localSet idx v []
  | localTee idx => exact arg1 fun v => localSet idx v [v]
  | globalGet idx => exact bind (read _) fun _ => bind (read _) fun _ => pure _
  | globalSet idx => exact arg1 fun v => hw.globalSet idx v
  | tableGet idx =>
    refine arg1 fun v => hw.tabInst fun a t _ => ?_
    simp only
    split
    · exact fail _
    · exact pure _
  | tableSet idx =>
    exact arg2 fun ref v => hw.tabInst fun a t ha => ite (fail _) (modifyVm (fun vm h => hw.table h ha) [])
  | memoryLoadStore op align offset =>
    simp only [effect]
    split
    · exact arg1 fun v => hw.mem0 fun a m _ => ite (fail _) (pure _)
    · exact arg2 fun v b => hw.mem0 fun a m ha => ite (fail _) (modifyVm (fun vm h => hw.memory h ha) [])
  | memorySize => exact hw.mem0 fun a m _ => pure _
  | memoryGrow => exact arg1 fun v => hw.mem0 fun a m ha => ite (modifyVm (fun vm h => hw.memory h ha) _) (pure _)
  | itestop op | iunop op | funop op | wrapop op | truncop op | convertop op | rankop op | reinterpretop op
  | extendop op | truncSat op => exact arg1 fun v => bind (read _) fun r => pure _
  | irelop op | ibinop op | frelop op | fbinop op => exact arg2 fun v w => bind (read _) fun r => pure _
  | refIsNull => exact arg1 fun v => pure _
  | refFunc fIdx => exact bind (read _) fun a => pure _
  | memoryInit dataIdx =>
    refine arg3 fun n src dst => hw.mem0 fun a m ha => bind (read _) fun mi => ?_
    split
    · exact ite (fail _) (ite (pure _) (ite (fail _) (modifyVm (fun vm h => hw.memory h ha) [])))
    · exact fail _
  | memoryCopy =>
    exact arg3 fun n src dst => hw.mem0 fun a m ha => ite (fail _) (modifyVm (fun vm h => hw.memory h ha) [])
  | memoryFill =>
    exact arg3 fun n v dst => hw.mem0 fun a m ha => ite (fail _) (modifyVm (fun vm h => hw.memory h ha) [])
  | dataDrop idx => exact modifyVm (fun vm h => hw.dropData h) []
  | elemDrop idx => exact modifyVm (fun vm h => hw.dropElem h) []
  | tableInit elemIdx tableIdx =>
    refine arg3 fun n src dst => hw.tabInst fun a t ha => bind (read _) fun mi => ?_
    split
    · exact ite (fail _) (ite (pure _) (ite (fail _)
        (bind (read _) fun refs => bind (onVm (hw.putRefs ha _ refs)) fun _ => pure _)))
    · exact fail _
  | tableCopy dst src =>
    exact arg3 fun n so d => hw.tabInst fun a t ha => hw.tabInst fun a' t' _ =>
      ite (fail _) (modifyVm (fun vm h => hw.table h ha) [])
  | tableGrow idx =>
    exact arg2 fun n ref => hw.tabInst fun a t ha => ite (pure _) (modifyVm (fun vm h => hw.table h ha) _)
  | tableSize idx => exact hw.tabInst fun a t _ => pure _
  | tableFill idx =>
    exact arg3 fun n ref off => hw.tabInst fun a t ha =>
      ite (fail _) (ite (fail _) (modifyVm (fun vm h => hw.table h ha) []))
  | _ => exact fail _

/-! ### Initialisation -/

theorem initElemActive_keepsVm (hw : KeptThrough W vm0 k) (mod : Module) (elem : Element) :
    VmM.Keeps W (initElemActive pf k mod elem) := by
  refine Eff.Triple.bind (Q := fun _ => W) (.read (fun _ _ h _ => h) fun _ h => h) fun mi => ?_
  refine .ite (fun _ => .fail fun _ h => h) fun _ => ?_
  refine .bind (Q := fun a vm => W vm ∧ vm0.addr (·.tAddrs) k elem.tableidx = .ok a) ?_ fun a => ?_
  · refine .read (fun vm a h ha => ⟨h, ?_⟩) fun _ h => h
    exact hw.addr_eq (fun _ => rfl) h ha
  · intro vm h
    have hrest : VmM.Keeps W (if elem.tableidx ≥ mod.tables.length then Eff.fail (.err .invalid "Invalid table index")
        else do
          let offset ← Eff.read fun vm =>
            if elem.offsetExpr = [] then .ok 0
            else offsetOf pf k "Incorrect element constexpr return type" elem.offsetExpr vm
          let t ← Eff.read fun vm => vm.table a
          if offset + elem.dataLen > t.tdata.length then Eff.fail (.err .invalid "Invalid offset")
          else do
            let refs ← Eff.lift (elemRefs pf k false elem 0 elem.dataLen)
            Silverfir.putRefs a offset refs) := by
      refine Eff.Triple.ite (fun _ => .fail fun _ h => h) fun _ => ?_
      refine .bind (Q := fun _ => W) (.read (fun _ _ h _ => h) fun _ h => h) fun offset => ?_
      refine .bind (Q := fun _ => W) (.read (fun _ _ h _ => h) fun _ h => h) fun t => ?_
      refine .ite (fun _ => .fail fun _ h => h) fun _ => ?_
      exact .bind (Q := fun _ => W) (.lift (fun _ _ h _ => h) fun _ h => h) fun refs => hw.putRefs h.2 offset refs
    exact hrest vm h.1

theorem initElem_keepsVm (hw : KeptThrough W vm0 k) (mod : Module) (x : ℕ × Element) :
    VmM.Keeps W (initElem pf k mod x) := by
  have hdrop : VmM.Keeps W (if x.2.mode ≠ .passive then dropElem k x.1 else Pure.pure ()) :=
    Eff.Triple.ite (fun _ => .modify fun _ h => hw.dropElem h) fun _ => .pure fun _ h => h
  exact Eff.Triple.ite (fun _ => .bind (initElemActive_keepsVm hw mod x.2) fun _ => hdrop) fun _ => hdrop

theorem initData_keepsVm (hw : KeptThrough W vm0 k) (x : ℕ × Data) : VmM.Keeps W (initData pf k x) := by
  refine Eff.Triple.ite (fun _ => .pure fun _ h => h) fun _ => ?_
  refine .bind (Q := fun _ => W) (.read (fun _ _ h _ => h) fun _ h => h) fun mi => ?_
  refine .ite (fun _ => .fail fun _ h => h) fun _ => ?_
  refine .bind (Q := fun a vm => W vm ∧ vm0.addr (·.mAddrs) k x.2.memidx = .ok a) ?_ fun a => ?_
  · refine .read (fun vm a h ha => ⟨h, ?_⟩) fun _ h => h
    exact hw.addr_eq (fun _ => rfl) h ha
  · intro vm h
    have hrest : VmM.Keeps W (do
        let offset ← Eff.read (offsetOf pf k "Incorrect data constexpr return type" x.2.offsetExpr)
        let m ← Eff.read fun vm => vm.memory a
        if offset + x.2.bytes.length > m.mdata.length then Eff.fail (.err .invalid "Invalid data section")
        else do
          Eff.modify (Vm.setMemory a (overwrite m.mdata offset x.2.bytes))
          Eff.modify (Vm.modifyInst k fun mi => { mi with droppedData := mi.droppedData.set x.1 true })) := by
      refine Eff.Triple.bind (Q := fun _ => W) (.read (fun _ _ h _ => h) fun _ h => h) fun offset => ?_
      refine .bind (Q := fun _ => W) (.read (fun _ _ h _ => h) fun _ h => h) fun m => ?_
      refine .ite (fun _ => .fail fun _ h => h) fun _ => ?_
      exact .bind (Q := fun _ => W) (.modify fun _ hm => hw.memory hm h.2) fun _ => .modify fun _ hm => hw.dropData hm
    exact hrest vm h.1

/-- The initialisation of an instance writes its own globals, and for the rest through its address tables. -/
theorem moduleInstInit_keepsVm (hw : KeptThrough W vm0 k) (hset : ∀ {vm i v}, W vm → W (vm.setGlobal ⟨k, i⟩ v))
    (mod : Module) : VmM.Keeps W (moduleInstInit pf k mod) := by
  refine Eff.Triple.bind (Q := fun _ => W) (.each fun x _ => initGlobal_triple hset) fun _ => ?_
  refine .bind (Q := fun _ => W) (.each fun x _ => initElem_keepsVm hw mod x) fun _ => ?_
  exact .each fun x _ => initData_keepsVm hw x

end Rules

/-! ### What is left alone -/

section Leaves
variable {pf : Platform} {vm vm' : Vm} {kind : ExternalKind} {a b : Addr} {k : ℕ}

theorem content_of_parts (hfuncs : vm'.part (·.mod.funcs) a = vm.part (·.mod.funcs) a)
    (htables : vm'.part (·.tables) a = vm.part (·.tables) a)
    (hmemories : vm'.part (·.memories) a = vm.part (·.memories) a)
    (hglobals : vm'.part (·.globals) a = vm.part (·.globals) a) : vm'.content kind a = vm.content kind a := by
  cases kind with
  | func => simp only [Vm.content, hfuncs]
  | table => simp only [Vm.content, htables]
  | memory => simp only [Vm.content, hmemories]
  | global => simp only [Vm.content, hglobals]

/-- Functions are part of the shape. -/
theorem funcs_of_shape (h : vm'.shape = vm.shape) : vm'.part (·.mod.funcs) a = vm.part (·.mod.funcs) a := by
  have hmods := Vm.mods_of_shape h
  have hpart : ∀ w : Vm, w.part (·.mod.funcs) a = w.mods[a.inst]?.bind (·.funcs[a.idx]?) := by
    intro w
    rw [Vm.part, Vm.mods, List.getElem?_map]
    cases w.instances[a.inst]? <;> rfl
  rw [hpart, hpart, hmods]

/-- An edit of an instance that leaves its definitions alone. -/
theorem content_modifyInst {f : ModuleInst → ModuleInst} (hfuncs : ∀ mi, (f mi).mod.funcs = mi.mod.funcs)
    (htables : ∀ mi, (f mi).tables = mi.tables) (hmemories : ∀ mi, (f mi).memories = mi.memories)
    (hglobals : ∀ mi, (f mi).globals = mi.globals) : (vm.modifyInst k f).content kind a = vm.content kind a :=
  content_of_parts (congrFun (part_modifyInst hfuncs) a) (congrFun (part_modifyInst htables) a)
    (congrFun (part_modifyInst hmemories) a) (congrFun (part_modifyInst hglobals) a)

theorem content_setGlobal (v : ValueU) (h : ¬ (kind = .global ∧ a = b)) :
    (vm.setGlobal b v).content kind a = vm.content kind a := by
  have honly : GlobalsOnly vm (vm.setGlobal b v) := globalsOnly_setGlobal b v
  cases kind with
  | func => simp only [Vm.content, funcs_of_shape honly.shape]
  | table => simp only [Vm.content, congrFun honly.tables a]
  | memory => simp only [Vm.content, congrFun honly.memories a]
  | global => simp only [Vm.content, part_setGlobal_ne fun heq => h ⟨rfl, heq⟩]

theorem content_setTable (tdata : List ValueU) (h : ¬ (kind = .table ∧ a = b)) :
    (vm.setTable b tdata).content kind a = vm.content kind a := by
  have honly : TablesOnly vm (vm.setTable b tdata) := tablesOnly_setTable b tdata
  cases kind with
  | func => simp only [Vm.content, funcs_of_shape honly.shape]
  | table =>
    have hne : a ≠ b := fun heq => h ⟨rfl, heq⟩
    rw [Vm.content, tables_setTable, editAt, if_neg hne]
    rfl
  | memory => simp only [Vm.content, congrFun honly.memories a]
  | global => simp only [Vm.content, congrFun honly.globals a]

theorem content_setMemory (mdata : List UInt8) (h : ¬ (kind = .memory ∧ a = b)) :
    (vm.setMemory b mdata).content kind a = vm.content kind a := by
  have honly : MemoriesOnly vm (vm.setMemory b mdata) := memoriesOnly_setMemory b mdata
  cases kind with
  | func => simp only [Vm.content, funcs_of_shape honly.shape]
  | table => simp only [Vm.content, congrFun honly.tables a]
  | memory =>
    have hne : a ≠ b := fun heq => h ⟨rfl, heq⟩
    rw [Vm.content, memories_setMemory, editAt, if_neg hne]
    rfl
  | global => simp only [Vm.content, congrFun honly.globals a]

/-- The VM has come from `vm0` by writes, and the definition is as it was. -/
structure Vm.Leaves (vm0 : Vm) (kind : ExternalKind) (a : Addr) (vm : Vm) : Prop where
  shape : vm.shape = vm0.shape
  content : vm.content kind a = vm0.content kind a

theorem Vm.Leaves.refl (vm : Vm) (kind : ExternalKind) (a : Addr) : vm.Leaves kind a vm := ⟨rfl, rfl⟩

theorem reaches_of_addr (kind : ExternalKind) {i : ℕ} (h : vm.addr (·.addrs kind) k i = .ok b) :
    vm.Reaches k kind b := by
  obtain ⟨mi, hmi, hentry⟩ := Vm.addr_ok.mp h
  exact ⟨mi, i, hmi, hentry⟩

theorem keptThrough_leaves {vm0 : Vm} (h : ¬ vm0.Reaches k kind a) : KeptThrough (vm0.Leaves kind a) vm0 k where
  shape hw := hw.shape
  global hw ha := by
    refine ⟨(Vm.shape_setGlobal _ _ _).trans hw.shape, (content_setGlobal _ ?_).trans hw.content⟩
    rintro ⟨rfl, rfl⟩
    exact h (reaches_of_addr .global ha)
  table hw ha := by
    refine ⟨(Vm.shape_setTable _ _ _).trans hw.shape, (content_setTable _ ?_).trans hw.content⟩
    rintro ⟨rfl, rfl⟩
    exact h (reaches_of_addr .table ha)
  memory hw ha := by
    refine ⟨(Vm.shape_setMemory _ _ _).trans hw.shape, (content_setMemory _ ?_).trans hw.content⟩
    rintro ⟨rfl, rfl⟩
    exact h (reaches_of_addr .memory ha)
  dropElem hw := by
    refine ⟨(Vm.shape_modifyInst ?_ _ _).trans hw.shape, (content_modifyInst ?_ ?_ ?_ ?_).trans hw.content⟩ <;>
      intro mi <;> rfl
  dropData hw := by
    refine ⟨(Vm.shape_modifyInst ?_ _ _).trans hw.shape, (content_modifyInst ?_ ?_ ?_ ?_).trans hw.content⟩ <;>
      intro mi <;> rfl

end Leaves

/-! ### Steps -/

/-- The instance whose code a step runs: the one of the innermost call, or the one that is made. -/
def System.actor (s : System) : ℕ :=
  match s.frames with
  | [] => s.vm.instances.length
  | fr :: _ => fr.fAddr.inst

section Steps
variable {pf : Platform} {mods : Module → Prop} {vm vm' : Vm} {kind : ExternalKind} {a : Addr} {r : Running}
  {fr : Frame} {rest : List Frame} {s s' : System}

theorem Vm.Reaches.of_shape {k : ℕ} (h : vm.Reaches k kind a) (hs : vm'.shape = vm.shape) : vm'.Reaches k kind a := by
  obtain ⟨mi, i, hmi, hentry⟩ := h
  obtain ⟨mi', hmi', heq⟩ := inst_of_shape hs.symm hmi
  have haddrs : mi'.addrs = mi.addrs := by
    funext kind'
    have hshape := congrArg (fun m : ModuleInst => m.addrs kind') heq
    cases kind' <;> exact hshape.symm
  refine ⟨mi', i, hmi', ?_⟩
  rw [haddrs]
  exact hentry

theorem Passed.content {done : Bool} (h : Passed vm r done s) : s.vm.content kind a = vm.content kind a := by
  refine content_of_parts ?_ ?_ ?_ ?_ <;> exact congrFun (h.part fun _ _ => rfl) a

theorem mem0Of_addr (h : mem0Of vm fr = some a) : vm.addr (·.mAddrs) fr.fAddr.inst 0 = .ok a := by
  rw [mem0Of, Option.bind_eq_some_iff] at h
  obtain ⟨mi, hmi, hentry⟩ := h
  exact Vm.addr_ok.mpr ⟨mi, hmi, Option.join_eq_some_iff.mp hentry⟩

/-- A host function writes to memory 0 of its caller. -/
theorem hostCall_leaves {act : Act ValueU} {callee : Func} {id : ℕ} {params : List ValueU}
    (hkept : KeptThrough (vm.Leaves kind a) vm fr.fAddr.inst)
    (h : hostCall pf vm r fr rest act callee id params = .ok s) :
    ∃ vm1, vm.Leaves kind a vm1 ∧ Passed vm1 r false s := by
  obtain ⟨⟨results, bytes⟩, -, h⟩ | rfl := checked_ok h
  · cases h
    refine ⟨_, ?_, .next rfl⟩
    cases hmem : mem0Of vm fr with
    | none => exact .refl vm kind a
    | some m =>
      cases bytes with
      | none => exact .refl vm kind a
      | some b => exact hkept.memory (.refl vm kind a) (mem0Of_addr hmem)
  · exact ⟨vm, .refl vm kind a, .abort⟩

theorem callFunc_leaves {act : Act ValueU} {callee : Addr} {fn : Func} {params : List ValueU} {args : ℕ}
    (hkept : KeptThrough (vm.Leaves kind a) vm fr.fAddr.inst)
    (h : callFunc pf vm r fr rest act callee fn params args = .ok s) :
    ∃ vm1, vm.Leaves kind a vm1 ∧ Passed vm1 r false s := by
  rw [callFunc] at h
  split at h
  · exact hostCall_leaves hkept h
  · obtain ⟨⟨fr', t⟩, -, h⟩ | rfl := checked_ok h
    · cases h
      exact ⟨vm, .refl vm kind a, .next rfl⟩
    · exact ⟨vm, .refl vm kind a, .abort⟩

theorem opPlain_leaves {i : Instr} {act : Act ValueU} (hkept : KeptThrough (vm.Leaves kind a) vm fr.fAddr.inst)
    (h : opPlain pf vm r fr rest i act = .ok s) : ∃ vm1, vm.Leaves kind a vm1 ∧ Passed vm1 r false s := by
  rw [opPlain] at h
  split at h
  · simp at h
  · have heffect : Exec.KeepsVm (vm.Leaves kind a)
        (effect pf fr.fAddr.inst i (act.stack.take (operandCount i))) := effect_keepsVm hkept i _
    obtain ⟨hok, herr⟩ := heffect ⟨vm, fr.locals⟩ (.refl vm kind a)
    split at h
    · next results s1 heff =>
      cases h
      exact ⟨s1.vm, hok _ _ heff, .next rfl⟩
    · next type msg s1 heff =>
      cases h
      exact ⟨s1.vm, herr _ _ heff, .abort⟩
    · simp at h

/-- A pass leaves what the instance of the innermost call does not reach. -/
theorem runStep_content (h : runStep pf vm r = .ok s) (hframes : r.frames = fr :: rest)
    (hr : ¬ vm.Reaches fr.fAddr.inst kind a) : s.vm.content kind a = vm.content kind a := by
  have hkept : KeptThrough (vm.Leaves kind a) vm fr.fAddr.inst := keptThrough_leaves hr
  obtain ⟨vm1, done, hleaves, hpassed⟩ : ∃ vm1 done, vm.Leaves kind a vm1 ∧ Passed vm1 r done s := by
    simp only [runStep, hframes, bind_eq_ok] at h
    obtain ⟨fn, -, out, -, h⟩ := h
    split at h
    · cases h
      exact ⟨vm, false, .refl vm kind a, .abort⟩
    · cases h
      exact ⟨vm, false, .refl vm kind a, .next rfl⟩
    · exact ⟨vm, _, .refl vm kind a, opFinish_passed h⟩
    · next idx act =>
      simp only [opCall, bind_eq_ok] at h
      obtain ⟨callee, -, calleeFn, -, ⟨params, act'⟩, -, h⟩ := h
      obtain ⟨vm1, hleaves, hpassed⟩ := callFunc_leaves hkept h
      exact ⟨vm1, false, hleaves, hpassed⟩
    · next typeIdx tableIdx act =>
      rw [opCallIndirect] at h
      split at h
      · simp at h
      · obtain ⟨callee, -, h⟩ | rfl := checked_ok h
        · simp only [bind_eq_ok] at h
          obtain ⟨calleeFn, -, ⟨params, act'⟩, -, h⟩ := h
          obtain ⟨vm1, hleaves, hpassed⟩ := callFunc_leaves hkept h
          exact ⟨vm1, false, hleaves, hpassed⟩
        · exact ⟨vm, false, .refl vm kind a, .abort⟩
    · obtain ⟨vm1, hleaves, hpassed⟩ := opPlain_leaves hkept h
      exact ⟨vm1, false, hleaves, hpassed⟩
  exact hpassed.content.trans hleaves.content

/-- Linking writes the address tables of the new instance only. -/
theorem linked_content {modId : ℕ} {mod : Module} {res : Except Fault Unit} (ha : a.inst < vm.instances.length)
    (hlink : linkModuleInst vm.instances.length mod (vm.push modId mod) = (res, vm')) :
    vm'.content kind a = vm.content kind a := by
  obtain ⟨e, rfl⟩ := linkModuleInst_relinks (push_newest vm modId mod) hlink
  have hpush : (vm.push modId mod).content kind a = vm.content kind a := by
    refine content_of_parts ?_ ?_ ?_ ?_ <;> exact (part_push a).trans (if_neg (Nat.ne_of_lt ha))
  refine (content_modifyInst ?_ ?_ ?_ ?_).trans hpush <;> intro mi <;> rfl

/-- An instantiation leaves what the new instance does not reach. -/
theorem instantiate_content {modId : ℕ} {mod : Module} (ha : a.inst < vm.instances.length)
    (hr : ¬ (instantiate pf modId mod vm).2.Reaches vm.instances.length kind a) :
    (instantiate pf modId mod vm).2.content kind a = vm.content kind a := by
  have hinited : ∀ {mod' res vm1 vm2}, moduleInstInit pf vm.instances.length mod' vm1 = (res, vm2) →
      ¬ vm2.Reaches vm.instances.length kind a → vm2.content kind a = vm1.content kind a := by
    intro mod' res vm1 vm2 hinit hr
    have hshape : vm2.shape = vm1.shape := by
      have hstores : ReflTransGen (StoreStep pf) vm1 (moduleInstInit pf vm.instances.length mod' vm1).2 :=
        Eff.Triple.after (moduleInstInit_stores mod') .refl
      rw [hinit] at hstores
      exact stores_shape hstores
    have hkept : KeptThrough (vm1.Leaves kind a) vm1 vm.instances.length :=
      keptThrough_leaves fun h => hr (h.of_shape hshape)
    have hinit' : VmM.Keeps (vm1.Leaves kind a) (moduleInstInit pf vm.instances.length mod') := by
      refine moduleInstInit_keepsVm hkept (fun {w i v} hw => ?_) mod'
      refine ⟨(Vm.shape_setGlobal _ _ _).trans hw.shape, (content_setGlobal v ?_).trans hw.content⟩
      rintro ⟨-, rfl⟩
      exact Nat.lt_irrefl _ ha
    have hleaves := Eff.Triple.after hinit' (s := vm1) (.refl vm1 kind a)
    rw [hinit] at hleaves
    exact hleaves.content
  have hphases := instantiate_phases pf modId mod vm
  generalize (instantiate pf modId mod vm).1 = res, (instantiate pf modId mod vm).2 = vm' at hphases hr ⊢
  cases hphases with
  | known | invalid => rfl
  | unlinked _ _ hlink => exact linked_content ha hlink
  | uninitialized _ _ hlink hinit | done _ _ hlink hinit => exact (hinited hinit hr).trans (linked_content ha hlink)

/-- A step leaves what the instance that acts does not reach. -/
theorem sysStep_content (h : SysStep pf mods s s') (ha : a.inst < s.vm.instances.length)
    (hr : ¬ s'.vm.Reaches s.actor kind a) : s'.vm.content kind a = s.vm.content kind a := by
  cases h with
  | @run vm r s' h =>
    obtain ⟨fr, rest, fn, hframes, -, -⟩ := runStep_moved h
    have hactor : System.actor ⟨vm, some r⟩ = fr.fAddr.inst := by
      rw [System.actor, show System.frames ⟨vm, some r⟩ = fr :: rest from hframes]
    rw [hactor] at hr
    exact runStep_content h hframes fun hreaches => hr (hreaches.of_shape (runStep_shape h))
  | invoke | reset => rfl
  | @instantiate vm modId mod s' _ h =>
    have hinst := @instantiate_content pf vm kind a modId mod ha fun hreaches =>
      hr (hreaches.of_shape (instantiateStep_shape h))
    refine (content_of_parts ?_ ?_ ?_ ?_).trans hinst <;>
      exact congrFun (instantiateStep_part (fun _ _ => rfl) h) a

end Steps

/-! ### Runs -/

section Run
variable {pf : Platform} {mods : Module → Prop} {s s' : System}

theorem sysStep_length (h : SysStep pf mods s s') : s.vm.instances.length ≤ s'.vm.instances.length := by
  rw [← length_mods, ← length_mods]
  obtain hsame | ⟨mod, mod', -, -, hadd⟩ := sysStep_mods h
  · rw [hsame]
  · rw [hadd, List.length_append]
    exact Nat.le_add_right _ _

/-- A step in which the definition is out of reach of the instance that acts. -/
def Apart (pf : Platform) (mods : Module → Prop) (kind : ExternalKind) (a : Addr) (s s' : System) : Prop :=
  SysStep pf mods s s' ∧ ¬ s'.vm.Reaches s.actor kind a

theorem run_apart {kind : ExternalKind} {a : Addr} (hrun : ReflTransGen (Apart pf mods kind a) s s')
    (ha : a.inst < s.vm.instances.length) : s'.vm.content kind a = s.vm.content kind a := by
  have hinv : a.inst < s'.vm.instances.length ∧ s'.vm.content kind a = s.vm.content kind a := by
    induction hrun with
    | refl => exact ⟨ha, rfl⟩
    | tail _ hstep ih =>
      have hlen := sysStep_length hstep.1
      exact ⟨Nat.lt_of_lt_of_le ih.1 hlen, (sysStep_content hstep.1 ih.1 hstep.2).trans ih.2⟩
  exact hinv.2

end Run

/-! ### Definitions that are not exported -/

/-- The entries that are set lead where the chain of re-exports ends. -/
def Vm.EntriesResolve (vm : Vm) : Prop :=
  ∀ (k : ℕ) (mi : ModuleInst) (kind : ExternalKind) (i : ℕ) (a : Addr), vm.instances[k]? = some mi →
    (mi.addrs kind)[i]? = some (some a) → Resolves vm.mods kind k i a

section Entries
variable {pf : Platform} {vm vm' : Vm} {k : ℕ} {mod : Module}

theorem Vm.EntriesResolve.of_shape (h : vm.EntriesResolve) (hs : vm'.shape = vm.shape) : vm'.EntriesResolve := by
  intro k mi' kind i a hmi' ha
  obtain ⟨mi, hmi, he⟩ := inst_of_shape hs hmi'
  have haddrs : mi'.shape.addrs kind = mi.shape.addrs kind := by rw [he]
  rw [Vm.mods_of_shape hs]
  exact h k mi kind i a hmi ((congrArg (·[i]?) haddrs).symm.trans ha)

theorem Vm.EntriesResolve.push (h : vm.EntriesResolve) (modId : ℕ) (mod : Module) :
    (vm.push modId mod).EntriesResolve := by
  have hmods : (vm.push modId mod).mods = vm.mods ++ [mod] := by
    rw [Vm.mods, Vm.push, List.map_append]
    rfl
  intro k mi kind i a hmi ha
  rw [hmods]
  rw [Vm.push, List.getElem?_append] at hmi
  split at hmi
  · exact (h k mi kind i a hmi ha).mono (List.prefix_append ..)
  · have hnew : mi = moduleInstNew modId mod := List.mem_singleton.mp (List.mem_of_getElem? hmi)
    rw [hnew] at ha
    have hmem := List.mem_of_getElem? ha
    cases kind <;> cases List.eq_of_mem_replicate hmem

theorem Vm.EntriesResolve.put (h : vm.EntriesResolve) {kind : ExternalKind} {i : ℕ} {a : Addr}
    (ha : Resolves vm.mods kind k i a) : (vm.modifyInst k (putAddr (kind, i) a)).EntriesResolve := by
  intro j mi' kind' i' b hmi' hb
  rw [Vm.mods_modifyInst (fun mi => by cases kind <;> rfl) k vm]
  obtain ⟨mi, hmi, rfl⟩ := Vm.inst_modifyInst hmi'
  split at hb
  · next heq =>
    rw [addrs_put, update_set] at hb
    split at hb
    · next hsame =>
      split at hb
      · cases hb
        rw [hsame.1, hsame.2, ← heq]
        exact ha
      · cases hb
    · exact h j mi kind' i' b hmi hb
  · exact h j mi kind' i' b hmi hb

/-- The address that is found for an entry is where its chain ends. -/
theorem Vm.EntriesResolve.linkAddr (h : vm.EntriesResolve) (hk : vm.mods[k]? = some mod) {kind : ExternalKind} {i : ℕ}
    {a : Addr} (hi : i < mod.space kind) (haddr : linkAddr k mod (kind, i) vm = .ok a) :
    Resolves vm.mods kind k i a := by
  cases hpath : mod.importPath kind i with
  | none =>
    rw [linkAddr_own hi hpath] at haddr
    cases haddr
    exact .own hk hi hpath
  | some path =>
    obtain ⟨t, idx, ht, hentry, -⟩ := (linkAddr_import hpath).mp haddr
    obtain ⟨mi, exp, hmi, hname, rfl, hexp⟩ := Vm.linkTarget_ok ht
    obtain ⟨mi', hmi', ha⟩ := Vm.addr_ok.mp hentry
    have htarget : vm.mods[t]? = some mi.mod := by
      rw [Vm.mods, List.getElem?_map, hmi]
      rfl
    exact .follow hk hpath htarget hname hexp (h t mi' kind exp.externalIdx a hmi' ha)

theorem linkRound_resolves {x : ExternalKind × ℕ} (hx : x.2 < mod.space x.1) :
    Eff.Triple (fun w => w.EntriesResolve ∧ w.mods[k]? = some mod) (linkRound k mod x)
      (fun _ w => w.EntriesResolve ∧ w.mods[k]? = some mod) (fun w => w.EntriesResolve ∧ w.mods[k]? = some mod) := by
  obtain ⟨kind, i⟩ := x
  refine .bind (Q := fun a w => (w.EntriesResolve ∧ w.mods[k]? = some mod) ∧ Resolves w.mods kind k i a)
    (.read (fun a w hw ha => ⟨hw, hw.1.linkAddr hw.2 hx ha⟩) fun _ hw => hw) fun a => .modify fun w hw => ?_
  constructor
  · exact hw.1.1.put hw.2
  · rw [Vm.mods_modifyInst fun mi => by cases kind <;> rfl]
    exact hw.1.2

theorem linkModuleInst_resolves (h : vm.EntriesResolve) (modId : ℕ) (mod : Module) :
    (linkModuleInst vm.instances.length mod (vm.push modId mod)).2.EntriesResolve := by
  have htriple : Eff.Triple (fun w => w.EntriesResolve ∧ w.mods[vm.instances.length]? = some mod)
      (linkModuleInst vm.instances.length mod)
      (fun _ w => w.EntriesResolve ∧ w.mods[vm.instances.length]? = some mod)
      (fun w => w.EntriesResolve ∧ w.mods[vm.instances.length]? = some mod) := by
    rw [linkModuleInst_eq]
    exact .each fun x hx => linkRound_resolves (mem_rounds.mp hx)
  exact (htriple.after ⟨h.push modId mod, mods_push vm modId mod⟩).1

theorem instantiate_resolves {modId : ℕ} (h : vm.EntriesResolve) : (instantiate pf modId mod vm).2.EntriesResolve := by
  have hlinked : ∀ {mod' res vm1}, linkModuleInst vm.instances.length mod' (vm.push modId mod') = (res, vm1) →
      vm1.EntriesResolve := by
    intro mod' res vm1 hlink
    have hres := linkModuleInst_resolves h modId mod'
    rw [hlink] at hres
    exact hres
  have hinited : ∀ {mod' res vm1 vm2}, moduleInstInit pf vm.instances.length mod' vm1 = (res, vm2) →
      vm1.EntriesResolve → vm2.EntriesResolve := by
    intro mod' res vm1 vm2 hinit h1
    have hstores : ReflTransGen (StoreStep pf) vm1 (moduleInstInit pf vm.instances.length mod' vm1).2 :=
      Eff.Triple.after (moduleInstInit_stores mod') .refl
    rw [hinit] at hstores
    exact h1.of_shape (stores_shape hstores)
  have hphases := instantiate_phases pf modId mod vm
  generalize (instantiate pf modId mod vm).1 = res, (instantiate pf modId mod vm).2 = vm' at hphases ⊢
  cases hphases with
  | known | invalid => exact h
  | unlinked _ _ hlink => exact hlinked hlink
  | uninitialized _ _ hlink hinit | done _ _ hlink hinit => exact hinited hinit (hlinked hlink)

theorem sysStep_resolves {mods : Module → Prop} {s s' : System} (h : SysStep pf mods s s') (hs : s.vm.EntriesResolve) :
    s'.vm.EntriesResolve := by
  cases h with
  | run h => exact hs.of_shape (runStep_shape h)
  | invoke | reset => exact hs
  | instantiate _ h => exact (instantiate_resolves hs).of_shape (instantiateStep_shape h)

/-- What a module does not export is at the end of no chain but its own. -/
theorem Resolves.unexported {mods : List Module} {kind : ExternalKind} {i : ℕ} {a : Addr} (h : Resolves mods kind k i a)
    (hmod : mods[a.inst]? = some mod)
    (hpriv : ∀ exp ∈ mod.exports, exp.externalKind = kind → exp.externalIdx ≠ a.idx) : k = a.inst ∧ i = a.idx := by
  induction h with
  | own => exact ⟨rfl, rfl⟩
  | @follow k i mod' path t target exp a _ _ ht _ hexp _ ih =>
    obtain ⟨rfl, hidx⟩ := ih hmod hpriv
    obtain rfl : mod = target := Option.some.inj (hmod.symm.trans ht)
    have hfound := List.find?_some hexp
    simp only [Bool.and_eq_true, beq_iff_eq] at hfound
    exact absurd hidx (hpriv exp (List.mem_of_find?_eq_some hexp) hfound.1)

end Entries

/-- Where a definition is not exported, a step of another instance is apart from it. -/
theorem unexported_apart {pf : Platform} {mods : Module → Prop} {s s' : System} {kind : ExternalKind} {a : Addr}
    {mod : Module} (hs : s.vm.EntriesResolve) (hmod : s.vm.mods[a.inst]? = some mod)
    (hpriv : ∀ exp ∈ mod.exports, exp.externalKind = kind → exp.externalIdx ≠ a.idx)
    (hrun : ReflTransGen (fun x y => SysStep pf mods x y ∧ x.actor ≠ a.inst) s s') :
    ReflTransGen (Apart pf mods kind a) s s' := by
  have hinv : s'.vm.EntriesResolve ∧ s'.vm.mods[a.inst]? = some mod ∧ ReflTransGen (Apart pf mods kind a) s s' := by
    induction hrun with
    | refl => exact ⟨hs, hmod, .refl⟩
    | @tail x y _ hstep ih =>
      obtain ⟨hx, hmodx, hapart⟩ := ih
      have hy := sysStep_resolves hstep.1 hx
      have hmody : y.vm.mods[a.inst]? = some mod := by
        obtain hsame | ⟨mod1, mod', -, -, hadd⟩ := sysStep_mods hstep.1
        · rw [hsame]
          exact hmodx
        · rw [hadd, List.getElem?_append_left (List.getElem?_eq_some_iff.mp hmodx).1]
          exact hmodx
      refine ⟨hy, hmody, hapart.tail ⟨hstep.1, fun hreaches => ?_⟩⟩
      obtain ⟨mi, i, hmi, hentry⟩ := hreaches
      exact hstep.2 ((hy _ mi kind i a hmi hentry).unexported hmody hpriv).1
  exact hinv.2.2

theorem run_resolves {pf : Platform} {mods : Module → Prop} {s : System}
    (hrun : ReflTransGen (SysStep pf mods) {} s) : s.vm.EntriesResolve := by
  refine Run.invariant (p := fun x => x.vm.EntriesResolve) (fun _ _ hstep hx => sysStep_resolves hstep hx) hrun ?_
  intro k mi kind i a hmi
  cases hmi

/-! ### Two instances of one module -/

/-- A second instance of the module is made, and its start function makes `n` passes. -/
def secondRun (mod : Module) : ℕ → R System
  | 0 => do
    let s ← startRun mod 3
    match s.running with
    | none => instantiateStep idle s.vm 1 mod
    | some _ => undef "the first start function runs"
  | n + 1 => do
    let s ← secondRun mod n
    match s.running with
    | none => undef "no start function"
    | some r => runStep idle s.vm r

theorem secondRun_run {mods : Module → Prop} {mod : Module} (hm : mods mod) {s s' : System} {n k : ℕ}
    (hs : startRun mod 3 = .ok s) (hfirst : s.actor ≠ k)
    (hactor : ∀ m < n, ∀ x, secondRun mod m = .ok x → x.actor ≠ k) (hs' : secondRun mod n = .ok s') :
    ReflTransGen (fun x y => SysStep idle mods x y ∧ x.actor ≠ k) s s' := by
  induction n generalizing s' with
  | zero =>
    obtain ⟨⟨vm, running⟩, h, hinst⟩ := bind_eq_ok.mp hs'
    rw [hs] at h
    cases h
    cases running with
    | some => cases hinst
    | none => exact .single ⟨.instantiate hm hinst, hfirst⟩
  | succ n ih =>
    obtain ⟨⟨vm, running⟩, h, hstep⟩ := bind_eq_ok.mp hs'
    have hrun := ih (fun m hlt => hactor m (Nat.lt_succ_of_lt hlt)) h
    cases running with
    | none => cases hstep
    | some r => exact hrun.tail ⟨.run hstep, hactor n (Nat.lt_succ_self n) _ h⟩

/-- The second instance of `setterModule` runs its start function. -/
theorem secondRun_setter : ∃ s s' mod, startRun (setterModule 1) 3 = .ok s ∧ secondRun (setterModule 1) 3 = .ok s' ∧
    s.vm.mods[0]? = some mod ∧ mod.exports = [] ∧
    ReflTransGen (fun x y => SysStep idle Module.Guarded x y ∧ x.actor ≠ 0) s s' := by
  have hvals : (startRun (setterModule 1) 3 >>= fun s => .ok (s.actor, s.vm.mods[0]?.map Module.exports)) =
        .ok (1, some []) ∧
      (secondRun (setterModule 1) 3 >>= fun s => .ok s.vm.instances.length) = .ok 2 := by decide +kernel
  have hacts : ∀ m < 3, (secondRun (setterModule 1) m >>= fun x => .ok x.actor) = .ok 1 := by decide +kernel
  obtain ⟨⟨s, hs, hfirst⟩, s', hs', -⟩ := hvals.imp bind_eq_ok.mp bind_eq_ok.mp
  simp only [Except.ok.injEq, Prod.mk.injEq] at hfirst
  obtain ⟨mod, hmod, hexports⟩ := Option.map_eq_some_iff.mp hfirst.2
  refine ⟨s, s', mod, hs, hs', hmod, hexports, ?_⟩
  refine secondRun_run guarded_setterModule hs (by rw [hfirst.1]; decide) (fun m hm x hx => ?_) hs'
  have hact := hacts m hm
  rw [hx] at hact
  rw [Except.ok.inj hact]
  decide

/-- Every run leaves what an instance holds, as long as no instance acts whose address tables lead to it. -/
theorem run_isolated (pf : Platform) (mods : Module → Prop) (s s' : System) (kind : ExternalKind) (a : Addr)
    (ha : a.inst < s.vm.instances.length) (hrun : ReflTransGen (Apart pf mods kind a) s s') :
    s'.vm.content kind a = s.vm.content kind a := run_apart hrun ha

theorem run_isolated_setter : ∃ s s', startRun (setterModule 1) 3 = .ok s ∧ secondRun (setterModule 1) 3 = .ok s' ∧
    s'.vm.content .global ⟨0, 1⟩ = s.vm.content .global ⟨0, 1⟩ := by
  obtain ⟨s, s', mod, hs, hs', hmod, hexports, hrun⟩ := secondRun_setter
  have hentries := run_resolves (startRun_run guarded_setterModule hs)
  refine ⟨s, s', hs, hs', run_isolated idle Module.Guarded s s' .global ⟨0, 1⟩ ?_ ?_⟩
  · rw [← length_mods]
    exact (List.getElem?_eq_some_iff.mp hmod).1
  · exact unexported_apart hentries hmod (by simp [hexports]) hrun

/-- A definition that its module does not export is changed by the code of its own instance only, in every run and
whatever other modules are instantiated. -/
theorem run_private (pf : Platform) (mods : Module → Prop) (s s' : System) (kind : ExternalKind) (a : Addr)
    (mod : Module) (hrun : ReflTransGen (SysStep pf mods) {} s) (hmod : s.vm.mods[a.inst]? = some mod)
    (hpriv : ∀ exp ∈ mod.exports, exp.externalKind = kind → exp.externalIdx ≠ a.idx)
    (hrun' : ReflTransGen (fun x y => SysStep pf mods x y ∧ x.actor ≠ a.inst) s s') :
    s'.vm.content kind a = s.vm.content kind a := by
  have hlt : a.inst < s.vm.instances.length := by
    rw [← length_mods]
    exact (List.getElem?_eq_some_iff.mp hmod).1
  exact run_apart (unexported_apart (run_resolves hrun) hmod hpriv hrun') hlt

theorem run_private_setter : ∃ s s', startRun (setterModule 1) 3 = .ok s ∧ secondRun (setterModule 1) 3 = .ok s' ∧
    s'.vm.content .global ⟨0, 1⟩ = s.vm.content .global ⟨0, 1⟩ := by
  obtain ⟨s, s', mod, hs, hs', hmod, hexports, hrun⟩ := secondRun_setter
  refine ⟨s, s', hs, hs', ?_⟩
  exact run_private idle Module.Guarded s s' .global ⟨0, 1⟩ mod (startRun_run guarded_setterModule hs) hmod
    (by simp [hexports]) hrun

end Silverfir

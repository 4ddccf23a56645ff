import Silverfir.Bulk
import Silverfir.Arity

/-! The writes of the plain instructions, taken together: a property of the VM that the writes keep
is kept by the handlers, and each leaves as many results as it should. -/
namespace Silverfir

open InPlaceDt

/-- The instructions that write to tables. -/
def Instr.writesTable : Instr → Bool
  | .tableSet _ | .tableInit _ _ | .tableCopy _ _ | .tableGrow _ | .tableFill _ => true
  | _ => false

/-- A property of the VM that the writes of an instruction keep. Tables and memories keep their
length or grow up to their maximum, memories by `memory.grow` only; globals change by `global.set` only. -/
structure KeptBy (W : Vm → Prop) (i : Instr) : Prop where
  global {vm a v} (hi : ∃ idx, i = .globalSet idx) (hw : W vm) : W (vm.setGlobal a v)
  table {vm a t tdata} (hi : i.writesTable = true) (hw : W vm) (ht : vm.table a = .ok t)
    (hlen : tdata.length = t.tdata.length ∨ t.tdata.length ≤ tdata.length ∧ tdata.length ≤ t.tab.lim.max) :
    W (vm.setTable a tdata)
  memory {vm a m mdata} (hw : W vm) (hm : vm.memory a = .ok m)
    (hlen : mdata.length = m.mdata.length ∨ i = .memoryGrow ∧ ∃ pages, mdata.length = pages * wasmPageSize ∧
      m.mdata.length / wasmPageSize ≤ pages ∧ pages ≤ m.mem.lim.max) : W (vm.setMemory a mdata)
  dropData {vm k idx} (hw : W vm) :
    W (vm.modifyInst k fun mi => { mi with droppedData := mi.droppedData.set idx true })
  dropElem {vm k idx} (hw : W vm) :
    W (vm.modifyInst k fun mi => { mi with droppedElements := mi.droppedElements.set idx true })

/-- A handler that keeps `W`, from the states with `P`, with `n` results. -/
def Exec.Writes (W : Vm → Prop) (P : ExecState → Prop) (n : ℕ) (m : Exec (List ValueU)) : Prop :=
  Eff.Triple P m (fun results s => results.length = n ∧ W s.vm) (fun s => W s.vm)

section Programs
variable {pf : Platform} {k : ℕ} {W : Vm → Prop}

section Refs
variable (hset : ∀ {vm a t tdata}, W vm → vm.table a = .ok t → tdata.length = t.tdata.length → W (vm.setTable a tdata))
include hset

theorem putRef_triple (a : Addr) (i : ℕ) (ref : Vm → R ValueU) : Eff.Triple W (putRef a i ref) (fun _ => W) W := by
  refine .bind (.read (fun s v hs _ => hs) fun s hs => hs) fun v => ?_
  refine Eff.Triple.bind (Q := fun t vm => W vm ∧ vm.table a = .ok t) (.read (fun s t hs ht => ⟨hs, ht⟩) fun s hs => hs)
    fun t => ?_
  refine .ite (fun _ => .modify fun vm hs => ?_) fun _ => .fail fun s hs => hs.1
  exact hset hs.1 hs.2 (List.length_set ..)

theorem putRefs_triple (a : Addr) (refs : List (Vm → R ValueU)) (i : ℕ) :
    Eff.Triple W (putRefs a i refs) (fun _ => W) W := by
  induction refs generalizing i with
  | nil => exact .pure fun _ hs => hs
  | cons ref refs ih => exact .bind (putRef_triple hset a i ref) fun _ => ih (i + 1)

end Refs

namespace Exec.Writes

variable {P : ExecState → Prop} {α : Type} {n : ℕ}

theorem pure (hP : ∀ s, P s → W s.vm) (results : List ValueU) : Exec.Writes W P results.length (Pure.pure results) :=
  Eff.Triple.pure fun s hs => ⟨rfl, hP s hs⟩

theorem fail (hP : ∀ s, P s → W s.vm) (e : Fault) : Exec.Writes W P n (Eff.fail e) := Eff.Triple.fail hP

/-- Something is read first. -/
theorem read {β : Type} {x : ExecState → R β} {f : β → Exec (List ValueU)} (hP : ∀ s, P s → W s.vm)
    (hf : ∀ b, Exec.Writes W P n (f b)) : Exec.Writes W P n (Eff.read x >>= f) :=
  Eff.Triple.bind (.read (fun _ _ hs _ => hs) hP) hf

/-- The VM is changed, and the results are left. -/
theorem modifyVm {g : Vm → Vm} (hg : ∀ s, P s → W (g s.vm)) (results : List ValueU) :
    Exec.Writes W P results.length (do InPlaceDt.modifyVm g; Pure.pure results) :=
  Eff.Triple.bind (Q := fun _ s => W s.vm) (.modify hg) fun _ => .pure fun _ hs => ⟨rfl, hs⟩

theorem ite {p : Prop} [Decidable p] {m m' : Exec (List ValueU)} (ht : p → Exec.Writes W P n m)
    (he : ¬ p → Exec.Writes W P n m') : Exec.Writes W P n (if p then m else m') := Eff.Triple.ite ht he

/-- `mem_inst0` is read, and is what the memory holds. -/
theorem mem0 {f : Addr × MemoryInst → Exec (List ValueU)} (hP : ∀ s, P s → W s.vm)
    (hf : ∀ a m, Exec.Writes W (fun s => P s ∧ s.vm.memory a = .ok m) n (f (a, m))) :
    Exec.Writes W P n (InPlaceDt.mem0 k >>= f) := by
  refine Eff.Triple.bind (Q := fun (x : Addr × MemoryInst) s => P s ∧ s.vm.memory x.1 = .ok x.2) ?_ fun x => hf x.1 x.2
  refine .bind (.read (fun _ _ hs _ => hs) hP) fun a => ?_
  refine Eff.Triple.bind (Q := fun m s => P s ∧ s.vm.memory a = .ok m)
    (.read (fun _ _ hs hm => ⟨hs, hm⟩) hP) fun m => ?_
  exact .pure fun _ hs => hs

theorem tabInst {idx : ℕ} {f : Addr × TableInst → Exec (List ValueU)} (hP : ∀ s, P s → W s.vm)
    (hf : ∀ a t, Exec.Writes W (fun s => P s ∧ s.vm.table a = .ok t) n (f (a, t))) :
    Exec.Writes W P n (InPlaceDt.tabInst k idx >>= f) := by
  refine Eff.Triple.bind (Q := fun (x : Addr × TableInst) s => P s ∧ s.vm.table x.1 = .ok x.2) ?_ fun x => hf x.1 x.2
  refine .bind (.read (fun _ _ hs _ => hs) hP) fun a => ?_
  refine Eff.Triple.bind (Q := fun t s => P s ∧ s.vm.table a = .ok t) (.read (fun _ _ hs ht => ⟨hs, ht⟩) hP) fun t => ?_
  exact .pure fun _ hs => hs

theorem arg1 {args : List ValueU} {body : ValueU → Exec (List ValueU)} (hP : ∀ s, P s → W s.vm)
    (h : ∀ a, Exec.Writes W P n (body a)) : Exec.Writes W P n (InPlaceDt.arg1 args body) := by
  unfold InPlaceDt.arg1
  split
  · exact h _
  · exact fail hP _

theorem arg2 {args : List ValueU} {body : ValueU → ValueU → Exec (List ValueU)} (hP : ∀ s, P s → W s.vm)
    (h : ∀ a b, Exec.Writes W P n (body a b)) : Exec.Writes W P n (InPlaceDt.arg2 args body) := by
  unfold InPlaceDt.arg2
  split
  · exact h _ _
  · exact fail hP _

theorem arg3 {args : List ValueU} {body : ValueU → ValueU → ValueU → Exec (List ValueU)}
    (hP : ∀ s, P s → W s.vm) (h : ∀ a b c, Exec.Writes W P n (body a b c)) :
    Exec.Writes W P n (InPlaceDt.arg3 args body) := by
  unfold InPlaceDt.arg3
  split
  · exact h _ _ _
  · exact fail hP _

theorem localSet (idx : ℕ) (v : ValueU) (results : List ValueU) :
    Exec.Writes W (fun s => W s.vm) results.length (do InPlaceDt.localSet idx v; Pure.pure results) := by
  refine Eff.Triple.bind (Q := fun _ s => W s.vm) ?_ fun _ => .pure fun _ hs => ⟨rfl, hs⟩
  refine .bind (.read (fun _ _ hs _ => hs) fun _ hs => hs) fun s => ?_
  exact .ite (fun _ => .modify fun s' hs => hs) fun _ => .fail fun _ hs => hs

/-- A program on the VM, before the results. -/
theorem onVm {x : VmM α} (hx : Eff.Triple W x (fun _ => W) W) (results : List ValueU) :
    Exec.Writes W (fun s => W s.vm) results.length (do let _ ← InPlaceDt.onVm x; Pure.pure results) := by
  refine Eff.Triple.bind (Q := fun _ s => W s.vm) ?_ fun _ => .pure fun _ hs => ⟨rfl, hs⟩
  intro s hs
  obtain ⟨hok, herr⟩ := hx s.vm hs
  unfold InPlaceDt.onVm
  refine ⟨fun a s' h => ?_, fun e s' h => ?_⟩
  · cases hm : x s.vm with
    | mk r vm =>
      rw [hm] at h
      cases h
      exact hok a vm hm
  · cases hm : x s.vm with
    | mk r vm =>
      rw [hm] at h
      cases h
      exact herr e vm hm

end Exec.Writes

/-- Bytes or references that fit are moved in, and the length stays. -/
theorem overwrite_slice_length {α : Type} {src dst : List α} {so d n : ℕ} (hd : d + n ≤ dst.length) :
    (overwrite dst d ((src.drop so).take n)).length = dst.length := by
  refine overwrite_length ?_
  rw [List.length_take, List.length_drop]
  omega

theorem storeBytes_length (width : ℕ) (v : ValueU) : (storeBytes width v).length = width := by
  simp [storeBytes]

open Exec.Writes in
/-- A plain instruction keeps what its writes keep, and leaves as many results as it should. -/
theorem effect_writes {i : Instr} (hw : KeptBy W i) (args : List ValueU) :
    Exec.Writes W (fun s => W s.vm) (resultCount i) (effect pf k i args) := by
  have hid : ∀ s : ExecState, W s.vm → W s.vm := fun _ hs => hs
  have hmem : ∀ {a m mdata}, mdata.length = m.mdata.length → ∀ results,
      Exec.Writes W (fun s => W s.vm ∧ s.vm.memory a = .ok m) results.length
        (do InPlaceDt.modifyVm (Vm.setMemory a mdata); Pure.pure results) :=
    fun hlen results => modifyVm (fun _ hs => hw.memory hs.1 hs.2 (.inl hlen)) results
  have htab : ∀ {a t tdata}, i.writesTable = true → tdata.length = t.tdata.length ∨
      t.tdata.length ≤ tdata.length ∧ tdata.length ≤ t.tab.lim.max → ∀ results,
      Exec.Writes W (fun s => W s.vm ∧ s.vm.table a = .ok t) results.length
        (do InPlaceDt.modifyVm (Vm.setTable a tdata); Pure.pure results) :=
    fun hi hlen results => modifyVm (fun _ hs => hw.table hi hs.1 hs.2 hlen) results
  cases i with
  | nop | i32Const | i64Const | f32Const | f64Const | refNull | opcodeFd => exact pure hid _
  | drop => exact arg1 hid fun _ => pure hid []
  | select | selectT => exact arg3 hid fun _ _ _ => pure hid [_]
  | localGet idx =>
    refine read hid fun s => ?_
    split
    · exact fail hid _
    · exact pure hid [_]
  | localSet idx => exact arg1 hid fun v => localSet idx v []
  | localTee idx => exact arg1 hid fun v => localSet idx v [v]
  | globalGet idx => exact read hid fun _ => read hid fun _ => pure hid [_]
  | globalSet idx =>
    exact arg1 hid fun v => read hid fun a => read hid fun _ => modifyVm (fun _ hs => hw.global ⟨idx, rfl⟩ hs) []
  | tableGet idx =>
    refine arg1 hid fun v => tabInst hid fun a t => ?_
    simp only
    split
    · exact fail (fun _ hs => hs.1) _
    · exact pure (fun _ hs => hs.1) [_]
  | tableSet idx =>
    exact arg2 hid fun ref v => tabInst hid fun a t =>
      ite (fun _ => fail (fun _ hs => hs.1) _) fun _ => htab rfl (.inl (List.length_set ..)) []
  | memoryLoadStore op align offset =>
    simp only [effect, resultCount]
    split
    · exact arg1 hid fun v => mem0 hid fun a m =>
        ite (fun _ => fail (fun _ hs => hs.1) _) fun _ => pure (fun _ hs => hs.1) [_]
    · refine arg2 hid fun v b => mem0 hid fun a m =>
        ite (fun _ => fail (fun _ hs => hs.1) _) fun hfits => hmem (overwrite_length ?_) []
      rw [storeBytes_length]
      exact Nat.not_lt.mp hfits
  | memorySize => exact mem0 hid fun a m => pure (fun _ hs => hs.1) [_]
  | memoryGrow =>
    refine arg1 hid fun v => mem0 hid fun a m => ite (fun hmax => ?_) fun _ => pure (fun _ hs => hs.1) [_]
    refine modifyVm (fun s hs => ?_) [_]
    refine hw.memory hs.1 hs.2 (.inr ⟨rfl, _, ?_, Nat.le_add_right _ (lo32 v), hmax⟩)
    rw [List.length_append, List.length_take, List.length_replicate]
    omega
  | itestop op | iunop op | funop op | wrapop op | truncop op | convertop op | rankop op | reinterpretop op
  | extendop op | truncSat op => exact arg1 hid fun v => read hid fun r => pure hid [r]
  | irelop op | ibinop op | frelop op | fbinop op => exact arg2 hid fun v w => read hid fun r => pure hid [r]
  | refIsNull => exact arg1 hid fun v => pure hid [_]
  | refFunc fIdx => exact read hid fun a => pure hid [_]
  | memoryInit dataIdx =>
    refine arg3 hid fun n src dst => mem0 hid fun a m => read (fun _ hs => hs.1) fun mi => ?_
    split
    · refine ite (fun _ => fail (fun _ hs => hs.1) _) fun hfits => ite (fun _ => pure (fun _ hs => hs.1) []) fun _ =>
        ite (fun _ => fail (fun _ hs => hs.1) _) fun _ => hmem (overwrite_slice_length ?_) []
      omega
    · exact fail (fun _ hs => hs.1) _
  | memoryCopy =>
    refine arg3 hid fun n src dst => mem0 hid fun a m =>
      ite (fun _ => fail (fun _ hs => hs.1) _) fun hfits => hmem (overwrite_slice_length ?_) []
    omega
  | memoryFill =>
    refine arg3 hid fun n v dst => mem0 hid fun a m =>
      ite (fun _ => fail (fun _ hs => hs.1) _) fun hfits => hmem (overwrite_length ?_) []
    rw [List.length_replicate]
    omega
  | dataDrop idx => exact modifyVm (fun s hs => hw.dropData hs) []
  | elemDrop idx => exact modifyVm (fun s hs => hw.dropElem hs) []
  | tableInit elemIdx tableIdx =>
    refine arg3 hid fun n src dst => tabInst hid fun a t => read (fun _ hs => hs.1) fun mi => ?_
    split
    · refine ite (fun _ => fail (fun _ hs => hs.1) _) fun _ => ite (fun _ => pure (fun _ hs => hs.1) []) fun _ =>
        ite (fun _ => fail (fun _ hs => hs.1) _) fun _ => read (fun _ hs => hs.1) fun refs => ?_
      have hput := putRefs_triple (W := W) (fun hs ht hlen => hw.table rfl hs ht (.inl hlen)) a refs (lo32 dst)
      exact (onVm hput []).conseq (fun _ hs => hs.1) fun _ _ hs => hs
    · exact fail (fun _ hs => hs.1) _
  | tableCopy dst src =>
    refine arg3 hid fun n so d => tabInst hid fun a t => tabInst (fun _ hs => hs.1) fun _ t' =>
      ite (fun _ => fail (fun _ hs => hs.1.1) _) fun hfits => ?_
    refine modifyVm (fun s hs => hw.table rfl hs.1.1 hs.1.2 (.inl (overwrite_slice_length ?_))) []
    omega
  | tableGrow idx =>
    refine arg2 hid fun n ref => tabInst hid fun a t => ite (fun _ => pure (fun _ hs => hs.1) [_]) fun hmax =>
      htab rfl (.inr ⟨?_, ?_⟩) [_]
    · rw [List.length_append]
      omega
    · rw [List.length_append, List.length_replicate]
      omega
  | tableSize idx => exact tabInst hid fun a t => pure (fun _ hs => hs.1) [_]
  | tableFill idx =>
    refine arg3 hid fun n ref off => tabInst hid fun a t => ite (fun _ => fail (fun _ hs => hs.1) _) fun _ =>
      ite (fun _ => fail (fun _ hs => hs.1) _) fun hfits => htab rfl (.inl ?_) []
    by_cases hn : lo32 n = 0
    · rw [hn, List.replicate_zero, overwrite_nil]
    · refine overwrite_length ?_
      rw [List.length_replicate]
      omega
  | _ => exact fail hid _

end Programs

end Silverfir

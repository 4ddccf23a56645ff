import Silverfir.Writes
import Silverfir.Machine

/-! The writes to the store. Whatever runs, the globals, tables, memories and dropped segments of a
VM change by these steps only. -/
namespace Silverfir

open Relation (ReflTransGen)
open InPlaceDt

/-- A write. Tables and memories keep their length or grow up to their maximum, unless it is a host
function that writes. -/
inductive StoreStep (pf : Platform) : Vm → Vm → Prop
  | global {vm a v} : StoreStep pf vm (vm.setGlobal a v)
  | table {vm a t tdata} (ht : vm.table a = .ok t)
      (hlen : tdata.length = t.tdata.length ∨
        t.tdata.length ≤ tdata.length ∧ tdata.length ≤ t.tab.lim.max) :
      StoreStep pf vm (vm.setTable a tdata)
  | memory {vm a m mdata} (hm : vm.memory a = .ok m)
      (hlen : mdata.length = m.mdata.length ∨ ∃ pages, mdata.length = pages * wasmPageSize ∧
        m.mdata.length / wasmPageSize ≤ pages ∧ pages ≤ m.mem.lim.max) :
      StoreStep pf vm (vm.setMemory a mdata)
  | host {vm a m mdata id args results} (hm : vm.memory a = .ok m)
      (hh : pf.host id args (some m.mdata) = .ok (results, some mdata)) : StoreStep pf vm (vm.setMemory a mdata)
  | drop {vm k} {droppedElements droppedData : ModuleInst → List Bool} :
      StoreStep pf vm (vm.modifyInst k fun mi =>
        { mi with droppedElements := droppedElements mi, droppedData := droppedData mi })

theorem drop_data {pf : Platform} {vm : Vm} {k : ℕ} {droppedData : ModuleInst → List Bool} :
    StoreStep pf vm (vm.modifyInst k fun mi => { mi with droppedData := droppedData mi }) :=
  @StoreStep.drop pf vm k (fun mi => mi.droppedElements) droppedData

theorem drop_elem {pf : Platform} {vm : Vm} {k : ℕ} {droppedElements : ModuleInst → List Bool} :
    StoreStep pf vm (vm.modifyInst k fun mi => { mi with droppedElements := droppedElements mi }) :=
  @StoreStep.drop pf vm k droppedElements fun mi => mi.droppedData

/-- A program on the VM that writes by these steps. -/
def VmM.Stores {α : Type} (pf : Platform) (vm0 : Vm) (P : Vm → Prop) (m : VmM α) : Prop :=
  Eff.Triple P m (fun _ vm => ReflTransGen (StoreStep pf) vm0 vm) (fun vm => ReflTransGen (StoreStep pf) vm0 vm)

/-- A handler that writes by these steps. -/
def Exec.Stores {α : Type} (pf : Platform) (vm0 : Vm) (P : ExecState → Prop) (m : Exec α) : Prop :=
  Eff.Triple P m (fun _ s => ReflTransGen (StoreStep pf) vm0 s.vm) (fun s => ReflTransGen (StoreStep pf) vm0 s.vm)

section Programs
variable {pf : Platform} {k : ℕ} {vm0 : Vm}

/-- Written so far. -/
def Written (pf : Platform) (vm0 : Vm) (s : ExecState) : Prop := ReflTransGen (StoreStep pf) vm0 s.vm

/-- The writes of an instruction are writes to the store. -/
theorem keptBy_stores (i : Instr) : KeptBy (ReflTransGen (StoreStep pf) vm0) i where
  global _ hs := hs.tail .global
  table _ hs ht hlen := hs.tail (.table ht hlen)
  memory hs hm hlen := hs.tail (.memory hm (hlen.imp_right And.right))
  dropData hs := hs.tail drop_data
  dropElem hs := hs.tail drop_elem

/-- A plain instruction changes the VM by writes to the store. -/
theorem effect_stores (i : Instr) (args : List ValueU) : Exec.Stores pf vm0 (Written pf vm0) (effect pf k i args) :=
  (effect_writes (keptBy_stores i) args).conseq (fun _ hs => hs) fun _ _ hs => hs.2

end Programs

/-! ### Initialisation -/

section Init
variable {pf : Platform} {k : ℕ} {W : Vm → Prop}

/-- A property of the VM that the initialisation of the segments of instance `k` keeps. -/
structure KeptByInit (W : Vm → Prop) (k : ℕ) : Prop where
  table {vm a t tdata} (hw : W vm) (ht : vm.table a = .ok t) (hlen : tdata.length = t.tdata.length) :
    W (vm.setTable a tdata)
  memory {vm a m mdata} (hw : W vm) (hm : vm.memory a = .ok m) (hlen : mdata.length = m.mdata.length) :
    W (vm.setMemory a mdata)
  dropElem {vm idx} (hw : W vm) :
    W (vm.modifyInst k fun mi => { mi with droppedElements := mi.droppedElements.set idx true })
  dropData {vm idx} (hw : W vm) :
    W (vm.modifyInst k fun mi => { mi with droppedData := mi.droppedData.set idx true })

theorem initGlobal_triple {mod : Module} {x : ℕ × Global} (hset : ∀ {vm v}, W vm → W (vm.setGlobal ⟨k, x.1⟩ v)) :
    Eff.Triple W (initGlobal pf k mod x) (fun _ => W) W := by
  refine .ite (fun _ => .pure fun _ hs => hs) fun _ => ?_
  refine .bind (.read (fun _ _ hs _ => hs) fun _ hs => hs) fun v => ?_
  exact .ite (fun _ => .fail fun _ hs => hs) fun _ => .modify fun _ hs => hset hs

theorem initElemActive_triple (hw : KeptByInit W k) (mod : Module) (elem : Element) :
    Eff.Triple W (initElemActive pf k mod elem) (fun _ => W) W := by
  refine .bind (.read (fun _ _ hs _ => hs) fun _ hs => hs) fun mi => ?_
  refine .ite (fun _ => .fail fun _ hs => hs) fun _ => ?_
  refine .bind (.read (fun _ _ hs _ => hs) fun _ hs => hs) fun a => ?_
  refine .ite (fun _ => .fail fun _ hs => hs) fun _ => ?_
  refine .bind (.read (fun _ _ hs _ => hs) fun _ hs => hs) fun offset => ?_
  refine .bind (.read (fun _ _ hs _ => hs) fun _ hs => hs) fun t => ?_
  refine .ite (fun _ => .fail fun _ hs => hs) fun _ => ?_
  refine .bind (.lift (fun _ _ hs _ => hs) fun _ hs => hs) fun refs => ?_
  exact putRefs_triple (fun hs ht hlen => hw.table hs ht hlen) a refs offset

theorem initElem_triple (hw : KeptByInit W k) (mod : Module) (x : ℕ × Element) :
    Eff.Triple W (initElem pf k mod x) (fun _ => W) W := by
  have hdrop : Eff.Triple W (if x.2.mode ≠ .passive then dropElem k x.1 else pure ()) (fun _ => W) W :=
    .ite (fun _ => .modify fun _ hs => hw.dropElem hs) fun _ => .pure fun _ hs => hs
  exact Eff.Triple.ite (fun _ => .bind (initElemActive_triple hw mod x.2) fun _ => hdrop) fun _ => hdrop

theorem initData_triple (x : ℕ × Data) (hmemory : ∀ {vm a m mdata}, W vm → vm.memory a = .ok m →
      mdata.length = m.mdata.length → W (vm.setMemory a mdata))
    (hdrop : ∀ {vm idx}, W vm → W (vm.modifyInst k fun mi => { mi with droppedData := mi.droppedData.set idx true })) :
    Eff.Triple W (initData pf k x) (fun _ => W) W := by
  refine .ite (fun _ => .pure fun _ hs => hs) fun _ => ?_
  refine .bind (.read (fun _ _ hs _ => hs) fun _ hs => hs) fun mi => ?_
  refine .ite (fun _ => .fail fun _ hs => hs) fun _ => ?_
  refine .bind (.read (fun _ _ hs _ => hs) fun _ hs => hs) fun a => ?_
  refine .bind (.read (fun _ _ hs _ => hs) fun _ hs => hs) fun offset => ?_
  refine Eff.Triple.bind (Q := fun m vm => W vm ∧ vm.memory a = .ok m)
    (.read (fun _ _ hs hm => ⟨hs, hm⟩) fun _ hs => hs) fun m => ?_
  refine .ite (fun _ => .fail fun _ hs => hs.1) fun hfits => ?_
  refine Eff.Triple.bind (Q := fun _ => W) (.modify fun _ hs => ?_) fun _ => .modify fun _ hs => hdrop hs
  exact hmemory hs.1 hs.2 (overwrite_length (Nat.not_lt.mp hfits))

/-- The segments, after the globals. -/
theorem initSegments_triple (hw : KeptByInit W k) (mod : Module) :
    Eff.Triple W (do
      Eff.each (initElem pf k mod) (indexed mod.elements)
      Eff.each (initData pf k) (indexed mod.data)) (fun _ => W) W :=
  .bind (.each fun x _ => initElem_triple hw mod x) fun _ => .each fun x _ => initData_triple x hw.memory hw.dropData

theorem moduleInstInit_triple (hw : KeptByInit W k) (mod : Module)
    (hset : ∀ {vm i v}, W vm → W (vm.setGlobal ⟨k, i⟩ v)) :
    Eff.Triple W (moduleInstInit pf k mod) (fun _ => W) W :=
  .bind (.each fun _ _ => initGlobal_triple hset) fun _ => initSegments_triple hw mod

theorem keptByInit_stores (pf : Platform) (vm0 : Vm) (k : ℕ) : KeptByInit (ReflTransGen (StoreStep pf) vm0) k where
  table hs ht hlen := hs.tail (.table ht (.inl hlen))
  memory hs hm hlen := hs.tail (.memory hm (.inl hlen))
  dropElem hs := hs.tail drop_elem
  dropData hs := hs.tail drop_data

/-- The initialisation of an instance changes the VM by writes to the store. -/
theorem moduleInstInit_stores {vm0 : Vm} (mod : Module) :
    VmM.Stores pf vm0 (fun vm => ReflTransGen (StoreStep pf) vm0 vm) (moduleInstInit pf k mod) :=
  moduleInstInit_triple (keptByInit_stores pf vm0 k) mod fun hs => hs.tail .global

end Init

/-! ### A pass of the loop -/

/-- A host function does not change the size of the memory it is given. -/
def HostKeeps (pf : Platform) : Prop :=
  ∀ id args bytes results bytes', pf.host id args bytes = .ok (results, bytes') →
    bytes'.map List.length = bytes.map List.length

/-- Is the next pass the end of the outermost call, with its results on the stack? -/
def returns (vm : Vm) (r : Running) : Bool :=
  match r.frames with
  | [fr] =>
    match vm.func fr.fAddr >>= fun fn => InPlaceDt.actStep fn InPlaceDt.lo32 fr.act with
    | .ok (.finish _) => true
    | _ => false
  | _ => false

/-- How a pass of the loop ends, after its writes: the run goes on, is given up, or is finished. -/
inductive Passed (vm : Vm) (r : Running) : Bool → System → Prop
  | next {r'} (hc : r'.cont = r.cont) : Passed vm r false ⟨vm, some r'⟩
  | abort : Passed vm r false (abort vm r)
  | finish {r' results s} (hc : r'.cont = r.cont) (h : finish vm r' results = .ok s) : Passed vm r true s

/-- The plain instruction that the innermost call is at. -/
def System.Executes (s : System) (fr : Frame) (i : Instr) : Prop :=
  ∃ r rest fn a, s.running = some r ∧ r.frames = fr :: rest ∧ s.vm.func fr.fAddr = .ok fn ∧
    actStep fn lo32 fr.act = .ok (.plain i a)

/-- The operands it pops. -/
def System.ExecutesOn (s : System) (fr : Frame) (i : Instr) (args : List ValueU) : Prop :=
  ∃ r rest fn a, s.running = some r ∧ r.frames = fr :: rest ∧ s.vm.func fr.fAddr = .ok fn ∧
    actStep fn lo32 fr.act = .ok (.plain i a) ∧ args = a.stack.take (operandCount i)

/-- What a pass writes: nothing, or memory 0 in a host function, or what the instruction writes. -/
inductive Wrote (pf : Platform) (vm : Vm) (r : Running) : Vm → Prop
  | nothing : Wrote pf vm r vm
  | host {a m mdata id args results} (hm : vm.memory a = .ok m)
      (hh : pf.host id args (some m.mdata) = .ok (results, some mdata)) : Wrote pf vm r (vm.setMemory a mdata)
  | plain {fr i args} (h : System.Executes ⟨vm, some r⟩ fr i) (hon : System.ExecutesOn ⟨vm, some r⟩ fr i args) :
      Wrote pf vm r (effect pf fr.fAddr.inst i args ⟨vm, fr.locals⟩).2.vm

section Pass
variable {pf : Platform} {vm : Vm} {r : Running} {fr : Frame} {rest : List Frame} {a : Act ValueU} {s : System}

theorem Wrote.stores {vm1 : Vm} (h : Wrote pf vm r vm1) : ReflTransGen (StoreStep pf) vm vm1 := by
  cases h with
  | nothing => exact .refl
  | host hm hh => exact .single (.host hm hh)
  | @plain fr i args h _ =>
    have hstores : Exec.Stores pf vm (Written pf vm) (effect pf fr.fAddr.inst i args) := effect_stores i args
    exact hstores.after (s := ⟨vm, fr.locals⟩) .refl

theorem checked_ok {α : Type} {x : R α} {next : α → R System} (h : checked vm r x next = .ok s) :
    (∃ y, x = .ok y ∧ next y = .ok s) ∨ s = abort vm r := by
  unfold checked at h
  split at h
  · next y => exact .inl ⟨y, rfl, h⟩
  · cases h
    exact .inr rfl
  · simp at h

/-- There is nothing to write to. -/
theorem setMemory_missing {a : Addr} {e : Fault} (hm : vm.memory a = .error e) (mdata : List UInt8) :
    vm.setMemory a mdata = vm := by
  have hnone : ∀ {α : Type} {xs : List α} {i : ℕ} {f : α → α}, xs[i]? = none → xs.modify i f = xs := by
    intro α xs i f hxs
    exact List.modify_eq_self (List.getElem?_eq_none_iff.mp hxs)
  rw [Vm.setMemory, Vm.modifyInst]
  cases hmi : vm.instances[a.inst]? with
  | none => rw [hnone hmi]
  | some mi =>
    have hidx : mi.memories[a.idx]? = none := by
      cases hidx : mi.memories[a.idx]? with
      | none => rfl
      | some m =>
        rw [Vm.memory, hmi, Option.bind_some, hidx] at hm
        cases hm
    rw [modify_self hmi (by rw [hnone hidx])]

/-- A host function writes to memory 0 of its caller at most. -/
theorem hostCall_ok {callee : Func} {id : ℕ} {params : List ValueU}
    (h : hostCall pf vm r fr rest a callee id params = .ok s) :
    (∃ vm1 stack, Wrote pf vm r vm1 ∧
      s = ⟨vm1, some { r with frames := { fr with act := { a with stack := stack } } :: rest }⟩) ∨ s = abort vm r := by
  obtain ⟨⟨results, bytes⟩, hx, h⟩ | rfl := checked_ok h
  · cases h
    refine .inl ⟨_, _, ?_, rfl⟩
    cases hmem : mem0Of vm fr with
    | none => exact .nothing
    | some m =>
      cases hb : bytes with
      | none => exact .nothing
      | some b =>
        cases hm : vm.memory m with
        | error e =>
          simp only [setMemory_missing hm]
          exact .nothing
        | ok mi =>
          simp only [hmem, hb, Option.bind_some, hm, Except.toOption, Option.map_some] at hx
          exact .host hm hx
  · exact .inr rfl

theorem hostCall_passed {callee : Func} {id : ℕ} {params : List ValueU}
    (h : hostCall pf vm r fr rest a callee id params = .ok s) :
    ∃ vm1, Wrote pf vm r vm1 ∧ Passed vm1 r false s := by
  obtain ⟨vm1, stack, hwrote, rfl⟩ | rfl := hostCall_ok h
  · exact ⟨vm1, hwrote, .next rfl⟩
  · exact ⟨vm, .nothing, .abort⟩

theorem callFunc_passed {callee : Addr} {fn : Func} {params : List ValueU} {args : ℕ}
    (h : callFunc pf vm r fr rest a callee fn params args = .ok s) :
    ∃ vm1, Wrote pf vm r vm1 ∧ Passed vm1 r false s := by
  rw [callFunc] at h
  split at h
  · exact hostCall_passed h
  · obtain ⟨⟨fr', t⟩, -, h⟩ | rfl := checked_ok h
    · cases h
      exact ⟨vm, .nothing, .next rfl⟩
    · exact ⟨vm, .nothing, .abort⟩

theorem opPlain_passed {i : Instr} (hexec : System.Executes ⟨vm, some r⟩ fr i)
    (hon : System.ExecutesOn ⟨vm, some r⟩ fr i (a.stack.take (operandCount i)))
    (h : opPlain pf vm r fr rest i a = .ok s) :
    ∃ vm1, Wrote pf vm r vm1 ∧ Passed vm1 r false s := by
  rw [opPlain] at h
  split at h
  · simp at h
  · have hwrote : Wrote pf vm r _ := .plain hexec hon
    split at h
    · next results s1 heff =>
      cases h
      rw [heff] at hwrote
      exact ⟨s1.vm, hwrote, .next rfl⟩
    · next t m s1 heff =>
      cases h
      rw [heff] at hwrote
      exact ⟨s1.vm, hwrote, .abort⟩
    · simp at h

theorem opFinish_passed {fn : Func} {stack : List ValueU} (h : opFinish vm r rest fn stack = .ok s) :
    Passed vm r rest.isEmpty s := by
  rw [opFinish] at h
  split at h
  · simp at h
  · split at h
    · refine .finish ?_ h
      rfl
    · cases h
      exact .next rfl

theorem returns_eq {fn : Func} {out : Outcome ValueU} (hframes : r.frames = fr :: rest)
    (hfn : vm.func fr.fAddr = .ok fn)
    (hout : actStep fn lo32 fr.act = .ok out) :
    returns vm r = (rest.isEmpty && match out with | .finish _ => true | _ => false) := by
  rw [returns, hframes]
  cases rest with
  | nil =>
    simp only [hfn, ok_bind, hout, List.isEmpty_nil, Bool.true_and]
    cases out <;> rfl
  | cons => rfl

/-- A pass of the loop writes something, and then the run goes on or is over. -/
theorem runStep_wrote (h : runStep pf vm r = .ok s) :
    ∃ vm1, Wrote pf vm r vm1 ∧ Passed vm1 r (returns vm r) s := by
  rw [runStep] at h
  split at h
  · simp at h
  · next fr rest hframes =>
    simp only [bind_eq_ok] at h
    obtain ⟨fn, hfn, out, hout, h⟩ := h
    rw [returns_eq hframes hfn hout]
    split at h
    · cases h
      rw [Bool.and_false]
      exact ⟨vm, .nothing, .abort⟩
    · cases h
      rw [Bool.and_false]
      exact ⟨vm, .nothing, .next rfl⟩
    · rw [Bool.and_true]
      exact ⟨vm, .nothing, opFinish_passed h⟩
    · next idx a =>
      rw [Bool.and_false]
      simp only [opCall, bind_eq_ok] at h
      obtain ⟨callee, -, calleeFn, -, ⟨params, a'⟩, -, h⟩ := h
      exact callFunc_passed h
    · next typeIdx tableIdx a =>
      rw [Bool.and_false]
      rw [opCallIndirect] at h
      split at h
      · simp at h
      · obtain ⟨callee, -, h⟩ | rfl := checked_ok h
        · simp only [bind_eq_ok] at h
          obtain ⟨calleeFn, -, ⟨params, a'⟩, -, h⟩ := h
          exact callFunc_passed h
        · exact ⟨vm, .nothing, .abort⟩
    · next i a _ _ =>
      rw [Bool.and_false]
      exact opPlain_passed ⟨r, rest, fn, a, rfl, hframes, hfn, hout⟩ ⟨r, rest, fn, a, rfl, hframes, hfn, hout, rfl⟩ h

theorem runStep_passed (h : runStep pf vm r = .ok s) :
    ∃ vm1, ReflTransGen (StoreStep pf) vm vm1 ∧ Passed vm1 r (returns vm r) s := by
  obtain ⟨vm1, hwrote, hpassed⟩ := runStep_wrote h
  exact ⟨vm1, hwrote.stores, hpassed⟩

end Pass

end Silverfir

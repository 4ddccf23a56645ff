import Silverfir.Grounded
import Silverfir.ConstReads

/-! What the handlers of the plain instructions read without a look: entries of address tables, the records they lead
to, and the segments of the module. Where all of it is there, the outcome of each handler is defined. -/
namespace Silverfir

open InPlaceDt Validator
open Relation (ReflTransGen)

/-! ### Programs with a defined outcome -/

/-- The source says what the program does in this state. -/
def Exec.DefinedAt {α : Type} (m : Exec α) (s : ExecState) : Prop := Defined (m s).1

section Rules
variable {α β : Type} {s : ExecState}

theorem defined_error {e : Fault} : Defined (.error e : R α) ↔ ∀ what, e ≠ .undefined what := by
  simp [Defined, undef]

@[simp] theorem definedAt_pure (a : α) : Exec.DefinedAt (Pure.pure a) s := defined_ok a

@[simp] theorem definedAt_trap (msg : String) : Exec.DefinedAt (trap msg : Exec α) s := defined_err _ _

@[simp] theorem definedAt_err (t : ErrType) (msg : String) : Exec.DefinedAt (Eff.fail (.err t msg) : Exec α) s :=
  defined_err t msg

@[simp] theorem definedAt_read {f : ExecState → R α} {g : α → Exec β} :
    Exec.DefinedAt (Eff.read f >>= g) s ↔ Defined (f s) ∧ ∀ a, f s = .ok a → Exec.DefinedAt (g a) s := by
  simp only [Exec.DefinedAt, Eff.bind_apply, Eff.read]
  cases hf : f s with
  | error e =>
    simp only [defined_error, reduceCtorEq, false_implies, implies_true, and_true]
  | ok a =>
    constructor
    · exact fun h => ⟨defined_ok a, fun b hb => by cases hb; exact h⟩
    · exact fun h => h.2 a rfl

@[simp] theorem definedAt_lift {x : R α} {g : α → Exec β} :
    Exec.DefinedAt (Eff.lift x >>= g) s ↔ Defined x ∧ ∀ a, x = .ok a → Exec.DefinedAt (g a) s := definedAt_read

@[simp] theorem definedAt_ofVm {f : Vm → R α} {g : α → Exec β} :
    Exec.DefinedAt (ofVm f >>= g) s ↔ Defined (f s.vm) ∧ ∀ a, f s.vm = .ok a → Exec.DefinedAt (g a) s := definedAt_read

@[simp] theorem definedAt_modifyVm {f : Vm → Vm} {g : Unit → Exec β} :
    Exec.DefinedAt (modifyVm f >>= g) s ↔ Exec.DefinedAt (g ()) { s with vm := f s.vm } := Iff.rfl

@[simp] theorem definedAt_get {g : ExecState → Exec β} :
    Exec.DefinedAt (Eff.get >>= g) s ↔ Exec.DefinedAt (g s) s := Iff.rfl

@[simp] theorem definedAt_ite {p : Prop} [Decidable p] {m m' : Exec α} :
    Exec.DefinedAt (if p then m else m') s ↔ (p → Exec.DefinedAt m s) ∧ (¬ p → Exec.DefinedAt m' s) := by
  by_cases h : p <;> simp [h]

end Rules

/-! ### Linked instances -/

/-- What the handlers read of instance `k` is there. -/
structure Vm.Equipped (vm : Vm) (k : ℕ) (mi : ModuleInst) : Prop where
  inst : vm.instances[k]? = some mi
  funcs : ∀ i < mi.mod.funcs.length, ∃ a fn, vm.addr (·.fAddrs) k i = .ok a ∧ vm.func a = .ok fn ∧
    fn.linkage.imported = false ∧ ∃ d, mi.mod.funcs[i]? = some d ∧ d.fnType = fn.fnType
  tables : ∀ i < mi.mod.tables.length, ∃ a t, vm.addr (·.tAddrs) k i = .ok a ∧ vm.table a = .ok t
  memory : mi.mod.memories ≠ [] → ∃ a m, vm.addr (·.mAddrs) k 0 = .ok a ∧ vm.memory a = .ok m
  globals : ∀ i < mi.mod.globals.length, ∃ a g, vm.addr (·.gAddrs) k i = .ok a ∧ vm.global a = .ok g
  data : mi.mod.data.length = mi.droppedData.length
  elements : mi.mod.elements.length = mi.droppedElements.length

section Linked
variable {vm : Vm} {k : ℕ} {mi : ModuleInst}

/-- A memory that is declared has its record. -/
theorem Grounded.memory (h : Grounded vm) {a : Addr} (hd : vm.Declares .memory a) : ∃ m, vm.memory a = .ok m := by
  obtain ⟨mod, hmod, hlt, -⟩ := hd
  obtain ⟨mi, hmi, rfl⟩ := Option.map_eq_some_iff.mp ((List.getElem?_map ..).symm.trans hmod)
  have hlen : mi.memories.length = mi.mod.memories.length := by
    have hmaps := (h.declared mi (List.mem_of_getElem? hmi)).memories
    simpa using congrArg List.length hmaps
  have hidx : a.idx < mi.memories.length := by
    rw [hlen]
    exact hlt
  exact ⟨_, Vm.memory_ok.mpr ⟨mi, hmi, List.getElem?_eq_getElem hidx⟩⟩

/-- As many flags as segments. -/
theorem Vm.Flagged.length (h : vm.Flagged) (hmi : vm.instances[k]? = some mi) (kind : SegmentKind) :
    (kind.lengths mi.mod).length = (kind.flags mi).length := by
  have hsome : ∀ i : ℕ, ((kind.flags mi)[i]?).isSome = ((kind.lengths mi.mod)[i]?).isSome := by
    intro i
    have hi := h kind ⟨k, i⟩
    simpa only [Vm.part, hmi, Option.bind_some] using hi
  have hlt : ∀ i : ℕ, i < (kind.flags mi).length ↔ i < (kind.lengths mi.mod).length := by
    intro i
    have hi := hsome i
    rwa [Bool.eq_iff_iff, isSome_getElem?, isSome_getElem?] at hi
  have h1 := hlt (kind.flags mi).length
  have h2 := hlt (kind.lengths mi.mod).length
  omega

theorem Vm.Linked.addr (h : vm.Linked k) (hmi : vm.instances[k]? = some mi) (kind : ExternalKind) {i : ℕ}
    (hi : i < mi.mod.space kind) : ∃ a, vm.addr (ModuleInst.addrs · kind) k i = .ok a ∧
      (mi.addrs kind)[i]? = some (some a) := by
  obtain ⟨a, ha⟩ := h mi hmi kind i hi
  exact ⟨a, Vm.addr_ok.mpr ⟨mi, hmi, ha⟩, ha⟩

theorem equipped_of_linked (hok : VmOk vm) (hg : Grounded vm) (hf : vm.Flagged) (h : vm.Linked k)
    (hmi : vm.instances[k]? = some mi) : vm.Equipped k mi where
  inst := hmi
  funcs i hi := by
    obtain ⟨a, ha, hentry⟩ := h.addr hmi .func hi
    obtain ⟨d, fn, hd, hfn, himp, htype, -⟩ := hok.funcs k mi i a hmi hentry
    exact ⟨a, fn, ha, hfn, himp, d, hd, htype⟩
  tables i hi := by
    obtain ⟨a, ha, hentry⟩ := h.addr hmi .table hi
    obtain ⟨d, t, -, ht, -⟩ := hok.tables k mi i a hmi hentry
    exact ⟨a, t, ha, ht⟩
  memory hne := by
    obtain ⟨a, ha, hentry⟩ := h.addr hmi .memory (List.length_pos_iff.mpr hne)
    obtain ⟨m, hm⟩ := hg.memory (hg.entries k mi .memory 0 a hmi hentry)
    exact ⟨a, m, ha, hm⟩
  globals i hi := by
    obtain ⟨a, ha, hentry⟩ := h.addr hmi .global hi
    obtain ⟨d, g, -, hglob, -⟩ := hok.globals k mi i a hmi hentry
    exact ⟨a, g, ha, hglob⟩
  data := by simpa [SegmentKind.lengths, SegmentKind.flags] using hf.length hmi .data
  elements := by simpa [SegmentKind.lengths, SegmentKind.flags] using hf.length hmi .elem

end Linked

/-! ### What instructions name -/

/-- What an instruction names is there, in a function with so many locals. -/
def Instr.Names (mod : Module) (locals : ℕ) : Instr → Prop
  | .localGet idx | .localSet idx | .localTee idx => idx < locals
  | .globalGet idx | .globalSet idx => idx < mod.globals.length
  | .tableGet idx | .tableSet idx | .tableGrow idx | .tableSize idx | .tableFill idx => idx < mod.tables.length
  | .memoryLoadStore _ _ _ | .memorySize | .memoryGrow | .memoryCopy | .memoryFill => mod.memories ≠ []
  | .memoryInit dataIdx => mod.memories ≠ [] ∧ dataIdx < mod.data.length
  | .tableInit elemIdx tableIdx => tableIdx < mod.tables.length ∧ elemIdx < mod.elements.length
  | .tableCopy dst src => dst < mod.tables.length ∧ src < mod.tables.length
  | .refFunc fIdx | .call fIdx => fIdx < mod.funcs.length
  | .callIndirect typeIdx tableIdx => typeIdx < mod.funcTypes.length ∧ tableIdx < mod.tables.length
  | _ => True

theorem names_erase {mod : Module} {locals : ℕ} (i : Instr) : i.erase.Names mod locals ↔ i.Names mod locals := by
  cases i <;> rfl

theorem withIdx_lt {α : Type} {msg : String} {xs : List α} {idx : ℕ} {f : α → R Ctx} {c : Ctx}
    (h : withIdx msg xs idx f = .ok c) : idx < xs.length := by
  obtain ⟨x, hx, -⟩ := withIdx_ok h
  exact (List.getElem?_eq_some_iff.mp hx).1

/-- The validator looks at everything that an instruction names, but for the memory of `memory.size` and
`memory.grow`. -/
theorem onInstr_names {mod : Module} {i : Instr} {imm : Stream} {c c' : Ctx} (h : onInstr mod i imm c = .ok c')
    (hsize : i = .memorySize ∨ i = .memoryGrow → mod.memories ≠ []) : i.Names mod c.locals.length := by
  cases i with
  | localGet | localSet | localTee | globalGet | globalSet | tableGet | tableSet | tableGrow | tableSize | tableFill
  | refFunc => exact withIdx_lt h
  | memoryLoadStore op align offset => exact onInstr_memory h rfl (by simp) (by simp)
  | memorySize => exact hsize (.inl rfl)
  | memoryGrow => exact hsize (.inr rfl)
  | memoryCopy | memoryFill => exact onInstr_memory h rfl (by simp) (by simp)
  | memoryInit => exact ⟨onInstr_memory h rfl (by simp) (by simp), withIdx_lt h⟩
  | tableInit | tableCopy =>
    have hlt := withIdx_lt h
    obtain ⟨tab, -, h⟩ := withIdx_ok h
    have hlt' := withIdx_lt h
    first
    | exact ⟨hlt, hlt'⟩
    | exact ⟨hlt', hlt⟩
  | call idx =>
    have hcall : onCall mod idx c = .ok c' := h
    unfold onCall at hcall
    split at hcall
    · simp at hcall
    · next fn hfn => exact (List.getElem?_eq_some_iff.mp hfn).1
  | callIndirect typeIdx tableIdx =>
    have hcall : onCallIndirect mod typeIdx tableIdx c = .ok c' := h
    obtain ⟨htab, pops, pushes, hsig, -⟩ := onCallIndirect_fixed hcall
    obtain ⟨ft, hft, -⟩ := Option.bind_eq_some_iff.mp hsig
    exact ⟨(List.getElem?_eq_some_iff.mp hft).1, htab⟩
  | _ => trivial

/-! ### Element segments -/

/-- The segment has items of one kind, and its expressions take the address of functions of the module only. -/
structure Element.InRange (mod : Module) (elem : Element) : Prop where
  kind : elem.vFuncidx = [] ∨ elem.vExpr = []
  exprs : ∀ expr ∈ elem.vExpr, ∀ i, Meets (fun _ => True) true expr (.refFunc i) → i < mod.funcs.length

section Refs
variable {pf : Platform} {vm : Vm} {k count : ℕ} {expr : Str}

/-- The entries of the functions of an instance are set. -/
def Vm.HasFuncs (vm : Vm) (k count : ℕ) : Prop := ∀ i < count, ∃ a, vm.addr (·.fAddrs) k i = .ok a

theorem Vm.HasFuncs.of_shape {vm' : Vm} (h : vm.HasFuncs k count) (hs : vm'.shape = vm.shape) :
    vm'.HasFuncs k count := by
  intro i hi
  rw [Vm.addr_eq_of_shape (fun _ => rfl) hs]
  exact h i hi

/-- An instruction of a segment, in which a function that is named is there. -/
theorem constInstr_defined (hf : vm.HasFuncs k count) {op : WasmOpcode} {code : Stream}
    (hfunc : ∀ i code', ConstInstr.Reads op code (.refFunc i) code' → i < count)
    (hop : op = .refNull ∨ op = .refFunc ∨ op = .end_) : Defined (constInstr pf vm k op code) := by
  obtain rfl | rfl | rfl := hop
  · simp [constInstr]
  · simp only [constInstr, defined_bind, Stream.defined_readVu32, true_and, defined_ok, implies_true, and_true]
    rintro ⟨i, code'⟩ hread
    obtain ⟨a, ha⟩ := hf i (hfunc i code' (.refFunc hread))
    simp only [ha, defined_ok]
  · exact defined_ok _

theorem constExprLoop_defined (hf : vm.HasFuncs k count)
    (hrange : ∀ i, Meets (fun _ => True) true expr (.refFunc i) → i < count) {n : ℕ} {code : Stream}
    {valueStack : List TypedValue} (h : Along (fun _ => True) true expr code) :
    Defined (constExprLoop pf vm k true n code valueStack) := by
  induction n generalizing code valueStack with
  | zero => exact defined_ok _
  | succ n ih =>
    rw [constExprLoop]
    simp only [defined_ite, defined_ok, implies_true, true_and, defined_bind, Stream.defined_readU8]
    rintro - ⟨b, s⟩ hread
    simp only
    cases hop : WasmOpcode.ofByte? b with
    | none => simp
    | some op =>
      simp only [defined_ite, defined_err, implies_true, true_and, defined_bind]
      intro hallowed
      have hop' : op = .refNull ∨ op = .refFunc ∨ op = .end_ := by
        by_contra hne
        simp only [not_or] at hne
        exact hallowed hne
      have hmeets : ∀ i code', ConstInstr.Reads op s (.refFunc i) code' → i < count :=
        fun i code' hc => hrange i ⟨code, s, code', b, op, h, hread, hop, hc, trivial⟩
      refine ⟨constInstr_defined hf hmeets hop', ?_⟩
      rintro (_ | ⟨v, code'⟩) hv
      · exact defined_ok _
      · obtain ⟨c, hc, -⟩ := constInstr_some hv
        have hpassive : c.Allowed true := by
          obtain rfl | rfl | rfl := hop' <;> cases hc <;> trivial
        exact ih (.next h hread hop hc hpassive trivial)

theorem exprRef_defined (hf : vm.HasFuncs k count)
    (hrange : ∀ i, Meets (fun _ => True) true expr (.refFunc i) → i < count) :
    Defined (exprRef pf k true expr vm) := by
  simp only [exprRef, reduceConstExpr, defined_bind, defined_ite, defined_err, defined_ok, implies_true, and_true]
  refine ⟨constExprLoop_defined hf hrange .start, fun valueStack _ => ?_⟩
  split <;> simp

theorem funcidxRef_defined (hf : vm.HasFuncs k count) {i : ℕ} (hi : i < count) :
    Defined (funcidxRef pf k i vm) := by
  obtain ⟨a, ha⟩ := hf i hi
  simp [funcidxRef, ha]

/-- The entries of a segment that are there can be taken as references. -/
theorem elemRefs_defined {mod : Module} {elem : Element} (hidx : ∀ i ∈ elem.vFuncidx, i < mod.funcs.length)
    (hlen : elem.dataLen = elem.vFuncidx.length ∨ elem.dataLen = elem.vExpr.length) (hrange : elem.InRange mod)
    {src size : ℕ} (hfits : src + size ≤ elem.dataLen) : ∃ refs, elemRefs pf k true elem src size = .ok refs ∧
      refs.length = size ∧ ∀ ref ∈ refs, ∀ vm : Vm, vm.HasFuncs k mod.funcs.length → Defined (ref vm) := by
  have hslice : ∀ {α : Type} (xs : List α), src + size ≤ xs.length → ((xs.drop src).take size).length = size := by
    intro α xs hle
    rw [List.length_take, List.length_drop]
    omega
  unfold elemRefs
  split
  · next hne =>
    have hnil := hrange.kind.resolve_left hne
    have hle : src + size ≤ elem.vFuncidx.length := by
      rw [hnil] at hlen
      simp only [List.length_nil] at hlen
      omega
    refine ⟨_, by rw [vecSlice, if_neg (by omega)]; rfl, ?_, ?_⟩
    · rw [List.length_map, hslice _ hle]
    · intro ref href vm hf
      obtain ⟨i, hi, rfl⟩ := List.mem_map.mp href
      exact funcidxRef_defined hf (hidx i (List.mem_of_mem_drop (List.mem_of_mem_take hi)))
  · next hnil =>
    rw [ne_eq, not_not] at hnil
    rw [hnil] at hlen
    simp only [List.length_nil] at hlen
    split
    · have hle : src + size ≤ elem.vExpr.length := by omega
      refine ⟨_, by rw [vecSlice, if_neg (by omega)]; rfl, ?_, ?_⟩
      · rw [List.length_map, hslice _ hle]
      · intro ref href vm hf
        obtain ⟨expr, hexpr, rfl⟩ := List.mem_map.mp href
        exact exprRef_defined hf (hrange.exprs expr (List.mem_of_mem_drop (List.mem_of_mem_take hexpr)))
    · next hnil' =>
      rw [ne_eq, not_not] at hnil'
      rw [hnil'] at hlen
      simp only [List.length_nil] at hlen
      have hzero : elem.dataLen = 0 := by omega
      refine ⟨[], by rw [if_neg (by omega)], ?_, by simp⟩
      simp only [List.length_nil]
      omega

/-- References that can be taken are put into a table that has room for them. -/
theorem putRefs_defined {a : Addr} {t : TableInst} {refs : List (Vm → R ValueU)} {i : ℕ} (hf : vm.HasFuncs k count)
    (hrefs : ∀ ref ∈ refs, ∀ vm : Vm, vm.HasFuncs k count → Defined (ref vm)) (ht : vm.table a = .ok t)
    (hfits : i + refs.length ≤ t.tdata.length) : Defined (putRefs a i refs vm).1 := by
  induction refs generalizing vm t i with
  | nil => exact defined_ok _
  | cons ref refs ih =>
    obtain ⟨href, hrefs⟩ := List.forall_mem_cons.mp hrefs
    rw [List.length_cons] at hfits
    rw [putRefs, Eff.bind_apply, putRef, Eff.bind_apply, Eff.read]
    cases hv : ref vm with
    | error e =>
      have hdef := href vm hf
      rw [hv, defined_error] at hdef
      exact defined_error.mpr hdef
    | ok v =>
      simp only [Eff.bind_apply, Eff.read, ht, if_pos (show i < t.tdata.length by omega), Eff.modify]
      refine ih (hf.of_shape (Vm.shape_setTable ..)) hrefs (table_setTable ht _) ?_
      rw [List.length_set]
      omega

end Refs

/-! ### Handlers -/

/-- Arithmetic and host functions have defined outcomes. -/
structure Platform.Total (pf : Platform) : Prop where
  host : ∀ id params bytes, Defined (pf.host id params bytes)
  unop : ∀ i v, Defined (pf.unop i v)
  binop : ∀ i v w, Defined (pf.binop i v w)

/-- `table.fill` with an offset that is negative as a 32-bit number: the check takes the sum for small, and the
entries behind the table are written. -/
def FillWraps (vm : Vm) (k idx : ℕ) (size offset : ValueU) : Prop :=
  ∃ a t, vm.addr (·.tAddrs) k idx = .ok a ∧ vm.table a = .ok t ∧ 0 < lo32 size ∧
    t.tdata.length < ((BitVec.setWidth 32 offset).signExtend 64).toNat + lo32 size ∧
    (((BitVec.setWidth 32 offset).signExtend 64).toNat + lo32 size) % 2 ^ 64 ≤ t.tdata.length

section Handlers
variable {pf : Platform} {vm : Vm} {k : ℕ} {mi : ModuleInst} {s : ExecState}

theorem definedAt_mem0 (heq : s.vm.Equipped k mi) (hne : mi.mod.memories ≠ [])
    {g : Addr × MemoryInst → Exec (List ValueU)}
    (hg : ∀ x, Exec.DefinedAt (g x) s) : Exec.DefinedAt (mem0 k >>= g) s := by
  obtain ⟨a, m, ha, hm⟩ := heq.memory hne
  have hrun : (mem0 k >>= g) s = g (a, m) s := by
    rw [Eff.bind_apply, mem0_apply ha hm]
  rw [Exec.DefinedAt, hrun]
  exact hg (a, m)

theorem definedAt_tabInst (heq : s.vm.Equipped k mi) {idx : ℕ} (hidx : idx < mi.mod.tables.length)
    {g : Addr × TableInst → Exec (List ValueU)}
    (hg : ∀ a t, s.vm.addr (·.tAddrs) k idx = .ok a → s.vm.table a = .ok t → Exec.DefinedAt (g (a, t)) s) :
    Exec.DefinedAt (tabInst k idx >>= g) s := by
  obtain ⟨a, t, ha, ht⟩ := heq.tables idx hidx
  have hrun : (tabInst k idx >>= g) s = g (a, t) s := by
    rw [Eff.bind_apply, tabInst_apply ha ht]
  rw [Exec.DefinedAt, hrun]
  exact hg a t ha ht

theorem definedAt_localSet {idx : ℕ} (hidx : idx < s.locals.length) (v : ValueU) (results : List ValueU) :
    Exec.DefinedAt (do localSet idx v; pure results) s := by
  have hrun : (localSet idx v) s = (.ok (), { s with locals := s.locals.set idx v }) := by
    simp only [localSet, Eff.bind_apply, Eff.get, if_pos hidx, Eff.modify]
  rw [Exec.DefinedAt, Eff.bind_apply, hrun]
  exact defined_ok _

theorem definedAt_arg1 {args : List ValueU} (hlen : args.length = 1) {body : ValueU → Exec (List ValueU)}
    (h : ∀ v, Exec.DefinedAt (body v) s) : Exec.DefinedAt (arg1 args body) s := by
  obtain ⟨v, rfl⟩ := List.length_eq_one_iff.mp hlen
  exact h v

theorem definedAt_arg2 {args : List ValueU} (hlen : args.length = 2) {body : ValueU → ValueU → Exec (List ValueU)}
    (h : ∀ v w, Exec.DefinedAt (body v w) s) : Exec.DefinedAt (arg2 args body) s := by
  obtain ⟨v, w, rfl⟩ := List.length_eq_two.mp hlen
  exact h v w

theorem definedAt_arg3 {args : List ValueU} (hlen : args.length = 3)
    {body : ValueU → ValueU → ValueU → Exec (List ValueU)}
    (h : ∀ u v w, args = [u, v, w] → Exec.DefinedAt (body u v w) s) : Exec.DefinedAt (arg3 args body) s := by
  obtain ⟨u, v, w, rfl⟩ := List.length_eq_three.mp hlen
  exact h u v w rfl

/-- What `table.init` and `memory.init` need of the segments. -/
structure Module.SegmentsFit (mod : Module) : Prop where
  funcidx : ∀ elem ∈ mod.elements, ∀ i ∈ elem.vFuncidx, i < mod.funcs.length
  dataLen : ∀ elem ∈ mod.elements, elem.dataLen = elem.vFuncidx.length ∨ elem.dataLen = elem.vExpr.length
  range : ∀ elem ∈ mod.elements, elem.InRange mod

theorem memoryInit_defined (heq : s.vm.Equipped k mi) {dataIdx : ℕ} (hne : mi.mod.memories ≠ [])
    (hidx : dataIdx < mi.mod.data.length) (size src dst : ValueU) :
    Exec.DefinedAt (memoryInit k dataIdx size src dst) s := by
  refine definedAt_mem0 heq hne fun x => ?_
  have hinst : s.vm.inst k = .ok mi := by rw [Vm.inst, heq.inst]
  have hdropped : dataIdx < mi.droppedData.length := heq.data ▸ hidx
  simp only [definedAt_ofVm, hinst, defined_ok, true_and, Except.ok.injEq, forall_eq']
  rw [List.getElem?_eq_getElem hidx, List.getElem?_eq_getElem hdropped]
  simp

theorem tableInit_defined (heq : s.vm.Equipped k mi) (hsegs : mi.mod.SegmentsFit) {elemIdx tableIdx : ℕ}
    (htab : tableIdx < mi.mod.tables.length) (hidx : elemIdx < mi.mod.elements.length) (size src dst : ValueU) :
    Exec.DefinedAt (tableInit pf k elemIdx tableIdx size src dst) s := by
  refine definedAt_tabInst heq htab fun a t ha ht => ?_
  have hinst : s.vm.inst k = .ok mi := by rw [Vm.inst, heq.inst]
  have hdropped : elemIdx < mi.droppedElements.length := heq.elements ▸ hidx
  have hmem : mi.mod.elements[elemIdx] ∈ mi.mod.elements := List.getElem_mem hidx
  simp only [definedAt_ofVm, hinst, defined_ok, true_and, Except.ok.injEq, forall_eq']
  rw [List.getElem?_eq_getElem hidx, List.getElem?_eq_getElem hdropped]
  simp only [definedAt_ite, definedAt_trap, definedAt_pure, implies_true, true_and]
  intro hfits _ _
  have hf : s.vm.HasFuncs k mi.mod.funcs.length := by
    intro i hi
    obtain ⟨a, fn, ha, -⟩ := heq.funcs i hi
    exact ⟨a, ha⟩
  have hle : lo32 src + lo32 size ≤ mi.mod.elements[elemIdx].dataLen := by omega
  obtain ⟨refs, hrefs, hlen, hdef⟩ : ∃ refs,
      elemRefs pf k true mi.mod.elements[elemIdx] (lo32 src) (lo32 size) = .ok refs ∧ refs.length = lo32 size ∧
        ∀ ref ∈ refs, ∀ vm : Vm, vm.HasFuncs k mi.mod.funcs.length → Defined (ref vm) :=
    elemRefs_defined (hsegs.funcidx _ hmem) (hsegs.dataLen _ hmem) (hsegs.range _ hmem) hle
  have hput := putRefs_defined (i := lo32 dst) hf hdef ht (by omega)
  simp only [hrefs, definedAt_lift, defined_ok, true_and, Except.ok.injEq, forall_eq']
  rw [Exec.DefinedAt, Eff.bind_apply, onVm]
  cases hres : putRefs a (lo32 dst) refs s.vm with
  | mk res vm' =>
    rw [hres] at hput
    cases res with
    | error => exact defined_error.mpr (defined_error.mp hput)
    | ok => exact defined_ok _

/-- Each plain instruction that names what is there has a defined outcome, but for `table.fill` with a wrapped sum. -/
theorem effect_defined (hpf : pf.Total) (heq : s.vm.Equipped k mi) (hsegs : mi.mod.SegmentsFit) {i : Instr}
    (hnames : i.Names mi.mod s.locals.length) (hplain : i.isControl = false) (hcall : ∀ idx, i ≠ .call idx)
    (hindirect : ∀ t tab, i ≠ .callIndirect t tab) {args : List ValueU} (hlen : args.length = operandCount i)
    (hfill : ∀ idx size ref offset, i = .tableFill idx → args = [size, ref, offset] →
      ¬ FillWraps s.vm k idx size offset) : Exec.DefinedAt (effect pf k i args) s := by
  cases i with
  | unreachable | block | else_ | end_ | brOrIf | brTable | return_ => cases hplain
  | call idx => exact absurd rfl (hcall idx)
  | callIndirect t tab => exact absurd rfl (hindirect t tab)
  | nop | i32Const | i64Const | f32Const | f64Const | refNull | opcodeFd => exact definedAt_pure _
  | drop => exact definedAt_arg1 hlen fun v => definedAt_pure _
  | select | selectT => exact definedAt_arg3 hlen fun u v w _ => definedAt_pure _
  | localGet idx =>
    have hidx : idx < s.locals.length := hnames
    simp only [effect, localGet, definedAt_get, List.getElem?_eq_getElem hidx, definedAt_pure]
  | localSet idx => exact definedAt_arg1 hlen fun v => definedAt_localSet hnames v []
  | localTee idx => exact definedAt_arg1 hlen fun v => definedAt_localSet hnames v [v]
  | globalGet idx =>
    obtain ⟨a, g, ha, hg⟩ := heq.globals idx hnames
    simp [effect, globalGet, ha, hg]
  | globalSet idx =>
    obtain ⟨a, g, ha, hg⟩ := heq.globals idx hnames
    refine definedAt_arg1 hlen fun v => ?_
    simp [globalSet, ha, hg]
  | tableGet idx =>
    refine definedAt_arg1 hlen fun v => definedAt_tabInst heq hnames fun a t _ _ => ?_
    simp only
    split <;> simp
  | tableSet idx => exact definedAt_arg2 hlen fun v w => definedAt_tabInst heq hnames fun a t _ _ => by simp
  | memoryLoadStore op align offset =>
    simp only [effect]
    split
    · next hload =>
      have hone : args.length = 1 := by simpa [operandCount, hload] using hlen
      exact definedAt_arg1 hone fun v => definedAt_mem0 heq hnames fun x => by simp
    · next hload =>
      have htwo : args.length = 2 := by simpa [operandCount, hload] using hlen
      exact definedAt_arg2 htwo fun v w => definedAt_mem0 heq hnames fun x => by simp
  | memorySize => exact definedAt_mem0 heq hnames fun x => by simp
  | memoryGrow => exact definedAt_arg1 hlen fun v => definedAt_mem0 heq hnames fun x => by simp
  | itestop op | iunop op | funop op | wrapop op | truncop op | convertop op | rankop op | reinterpretop op
  | extendop op | truncSat op =>
    refine definedAt_arg1 hlen fun v => ?_
    simp [hpf.unop]
  | irelop op | ibinop op | frelop op | fbinop op =>
    refine definedAt_arg2 hlen fun v w => ?_
    simp [hpf.binop]
  | refIsNull => exact definedAt_arg1 hlen fun v => definedAt_pure _
  | refFunc fIdx =>
    obtain ⟨a, fn, ha, -⟩ := heq.funcs fIdx hnames
    simp [effect, refFunc, ha]
  | memoryInit dataIdx =>
    exact definedAt_arg3 hlen fun u v w _ => memoryInit_defined heq hnames.1 hnames.2 u v w
  | memoryCopy => exact definedAt_arg3 hlen fun u v w _ => definedAt_mem0 heq hnames fun x => by simp
  | memoryFill => exact definedAt_arg3 hlen fun u v w _ => definedAt_mem0 heq hnames fun x => by simp
  | dataDrop | elemDrop => exact defined_ok _
  | tableInit elemIdx tableIdx =>
    exact definedAt_arg3 hlen fun u v w _ => tableInit_defined heq hsegs hnames.1 hnames.2 u v w
  | tableCopy dst src =>
    refine definedAt_arg3 hlen fun u v w _ => definedAt_tabInst heq hnames.1 fun a t _ _ => ?_
    exact definedAt_tabInst heq hnames.2 fun a' t' _ _ => by simp
  | tableGrow idx => exact definedAt_arg2 hlen fun v w => definedAt_tabInst heq hnames fun a t _ _ => by simp
  | tableSize idx => exact definedAt_tabInst heq hnames fun a t _ _ => by simp
  | tableFill idx =>
    refine definedAt_arg3 hlen fun size ref offset hargs => definedAt_tabInst heq hnames fun a t ha ht => ?_
    have hwraps := hfill idx size ref offset rfl hargs
    simp only [definedAt_ite, definedAt_err, definedAt_modifyVm, definedAt_pure, implies_true, true_and, and_true]
    intro hsum hbehind
    exact absurd ⟨a, t, ha, ht, hbehind.2, hbehind.1, Nat.not_lt.mp hsum⟩ hwraps

end Handlers

end Silverfir

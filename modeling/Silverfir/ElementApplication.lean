import Silverfir.DroppedSegments

/-! The application of element segments, by `table.init` and by `module_inst_init_elem`. Items that
are expressions are evaluated one by one, between the writes. -/
namespace Silverfir

open InPlaceDt
open Relation (ReflTransGen)

/-! ### What the evaluator accepts -/

section Reduce
variable {pf : Platform} {vm : Vm} {k : ℕ} {passiveElem : Bool} {expr : Str} {c : ConstInstr} {v : TypedValue}

/-- The evaluator takes this instruction, in a passive segment and else. -/
def ConstInstr.Taken (vm : Vm) (k : ℕ) (passiveElem : Bool) : ConstInstr → Prop
  | .refNull _ | .refFunc _ => True
  | .globalGet idx => passiveElem = false ∧ ∃ mi, vm.inst k = .ok mi ∧ idx < mi.globals.length
  | _ => passiveElem = false

theorem constInstr_of {op : WasmOpcode} {s s' : Stream} (hreads : c.Reads op s s')
    (htaken : c.Taken vm k passiveElem) (hv : c.value pf vm k = .ok v) :
    constInstr pf vm k op s = .ok (some (v, s')) := by
  cases hreads with
  | i32Const h | i64Const h | f32Const h | f64Const h | refNull h =>
    cases hv
    unfold constInstr
    dsimp only
    rw [h]
    rfl
  | refFunc h =>
    obtain ⟨a, ha, hv⟩ := bind_eq_ok.mp hv
    cases hv
    unfold constInstr
    dsimp only
    rw [h, ok_bind]
    dsimp only
    rw [ha]
    rfl
  | globalGet h =>
    obtain ⟨-, mi, hmi, hlt⟩ := htaken
    obtain ⟨a, ha, hv⟩ := bind_eq_ok.mp hv
    obtain ⟨g, hg, hv⟩ := bind_eq_ok.mp hv
    cases hv
    unfold constInstr
    dsimp only
    rw [h, ok_bind]
    dsimp only
    rw [hmi, ok_bind, if_neg (Nat.not_le.mpr hlt), ha, ok_bind, hg]
    rfl

/-- An opcode that is read is not behind the end. -/
theorem remaining_of_readU8 {s s' : Stream} {b : ℕ} (h : s.readU8 = .ok (b, s')) : s.remaining ≠ 0 := by
  intro hzero
  unfold Stream.readU8 at h
  have hnone : s.byteAt? 0 = none := by
    unfold Stream.byteAt?
    unfold Stream.remaining at hzero
    simp only [Nat.add_zero, Option.map_eq_none_iff]
    exact List.getElem?_eq_none (by omega)
  rw [hnone] at h
  exact absurd h (err_ne_ok _ _ _)

/-- The opcodes that are allowed in a passive segment are those of its instructions. -/
theorem ConstInstr.Reads.allowed {op : WasmOpcode} {s s' : Stream} (hreads : c.Reads op s s')
    (htaken : c.Taken vm k passiveElem) :
    ¬ (passiveElem = true ∧ op ≠ .refNull ∧ op ≠ .refFunc ∧ op ≠ .end_) := by
  rintro ⟨hp, hnull, hfunc, -⟩
  subst hp
  cases hreads with
  | refNull => exact hnull rfl
  | refFunc => exact hfunc rfl
  | globalGet => cases htaken.1
  | _ => cases htaken

theorem reduceConstExpr_of (hexpr : IsConstExpr expr c) (htaken : c.Taken vm k passiveElem)
    (hv : c.value pf vm k = .ok v) : reduceConstExpr pf vm k expr passiveElem = .ok v := by
  obtain ⟨b, op, s, s', hread, hop, hreads, hend⟩ := hexpr
  have hlast : ∀ n, constExprLoop pf vm k passiveElem n s' [v] = .ok [v] := by
    intro n
    cases n with
    | zero => rfl
    | succ n =>
      unfold constExprLoop
      rcases hend with hzero | ⟨b', s'', hread', hop'⟩
      · rw [if_pos hzero]
      · rw [if_neg (remaining_of_readU8 hread'), hread', ok_bind]
        dsimp only
        rw [hop']
        dsimp only
        rw [if_neg (by simp)]
        rfl
  have hloop : constExprLoop pf vm k passiveElem (expr.length + 1) (.from_ expr) [] = .ok [v] := by
    unfold constExprLoop
    rw [if_neg (remaining_of_readU8 hread), hread, ok_bind]
    dsimp only
    rw [hop]
    dsimp only
    rw [if_neg (hreads.allowed htaken), constInstr_of hreads htaken hv, ok_bind]
    exact hlast _
  unfold reduceConstExpr
  rw [hloop]
  rfl

/-- What has a value is taken. -/
theorem reduceConstExpr_taken (hexpr : IsConstExpr expr c) (h : reduceConstExpr pf vm k expr passiveElem = .ok v) :
    c.Taken vm k passiveElem := by
  obtain ⟨b, op, s, s', hread, hop, hreads, -⟩ := hexpr
  obtain ⟨vs, hloop, -⟩ := bind_eq_ok.mp h
  unfold constExprLoop at hloop
  rw [if_neg (remaining_of_readU8 hread), hread, ok_bind] at hloop
  dsimp only at hloop
  rw [hop] at hloop
  dsimp only at hloop
  split at hloop
  · exact absurd hloop (err_ne_ok _ _ _)
  · next hallowed =>
    obtain ⟨res, hinstr, -⟩ := bind_eq_ok.mp hloop
    have hactive : op ≠ .refNull → op ≠ .refFunc → op ≠ .end_ → passiveElem = false := by
      intro hnull hfunc hend
      by_contra htrue
      exact hallowed ⟨by simpa using htrue, hnull, hfunc, hend⟩
    cases hreads with
    | refNull | refFunc => trivial
    | globalGet hidx =>
      refine ⟨hactive (by decide) (by decide) (by decide), ?_⟩
      unfold constInstr at hinstr
      dsimp only at hinstr
      rw [hidx, ok_bind] at hinstr
      obtain ⟨mi, hmi, hinstr⟩ := bind_eq_ok.mp hinstr
      split at hinstr
      · exact absurd hinstr (err_ne_ok _ _ _)
      · next hlt => exact ⟨mi, hmi, Nat.not_le.mp hlt⟩
    | _ => exact hactive (by decide) (by decide) (by decide)

end Reduce

/-! ### Items -/

/-- The reference of an item as the code finds it. -/
def ElemItem.ref (pf : Platform) (k : ℕ) (passiveElem : Bool) : ElemItem → Vm → R ValueU
  | .func fIdx => funcidxRef pf k fIdx
  | .expr code => exprRef pf k passiveElem code

/-- An item that is a reference: a function that is there, or an expression of one instruction, which
is `ref.null`, `ref.func` with a function that is there, or, if the segment is not passive, `global.get`
of a reference. -/
inductive ElemItem.IsRef (vm : Vm) (k : ℕ) (passiveElem : Bool) : ElemItem → Prop
  | null : IsRef vm k passiveElem (.func nullfidx)
  | func {fIdx a} (ha : vm.addr (·.fAddrs) k fIdx = .ok a) : IsRef vm k passiveElem (.func fIdx)
  | refNull {code type} (h : IsConstExpr code (.refNull type)) : IsRef vm k passiveElem (.expr code)
  | refFunc {code fIdx a} (h : IsConstExpr code (.refFunc fIdx)) (ha : vm.addr (·.fAddrs) k fIdx = .ok a) :
      IsRef vm k passiveElem (.expr code)
  | globalGet {code idx mi a g} (hp : passiveElem = false) (h : IsConstExpr code (.globalGet idx))
      (hmi : vm.inst k = .ok mi) (hidx : idx < mi.globals.length) (ha : vm.addr (·.gAddrs) k idx = .ok a)
      (hg : vm.global a = .ok g) (href : g.glob.valtype.isRef = true) : IsRef vm k passiveElem (.expr code)

section Items
variable {pf : Platform} {vm vm' : Vm} {k : ℕ} {passiveElem : Bool} {item : ElemItem}

/-- The immediate of `ref.null` is a reference type. -/
theorem isConstExpr_refNull {expr : Str} {type : TypeId} (h : IsConstExpr expr (.refNull type)) :
    type.isRef = true := by
  obtain ⟨b, op, s, s', -, -, hreads, -⟩ := h
  cases hreads with
  | refNull hread =>
    unfold readType at hread
    obtain ⟨⟨x, s1⟩, -, hread⟩ := bind_eq_ok.mp hread
    dsimp only at hread
    split at hread
    · exact absurd hread (err_ne_ok _ _ _)
    · next t ht =>
      split at hread
      · cases hread
        assumption
      · exact absurd hread (err_ne_ok _ _ _)

theorem exprRef_of {expr : Str} {v : TypedValue} (h : reduceConstExpr pf vm k expr passiveElem = .ok v)
    (href : v.type.isRef = true) : exprRef pf k passiveElem expr vm = .ok v.val := by
  unfold exprRef
  rw [h, ok_bind, href]
  rfl

/-- An item has a reference if and only if it is one. -/
theorem ElemItem.ref_ok_iff (pf : Platform) : (∃ v, item.ref pf k passiveElem vm = .ok v) ↔
    item.IsRef vm k passiveElem := by
  constructor
  · rintro ⟨v, h⟩
    cases item with
    | func fIdx =>
      change funcidxRef pf k fIdx vm = .ok v at h
      unfold funcidxRef at h
      split at h
      · obtain ⟨a, ha, -⟩ := bind_eq_ok.mp h
        exact .func ha
      · next hnull =>
        rw [not_not.mp hnull]
        exact .null
    | expr code =>
      change exprRef pf k passiveElem code vm = .ok v at h
      obtain ⟨val, hval, h⟩ := bind_eq_ok.mp h
      split at h
      · exact absurd h (err_ne_ok _ _ _)
      · next href =>
        have hisRef : val.type.isRef = true := by simpa using href
        obtain ⟨c, hexpr, hc⟩ := reduceConstExpr_ok hval
        have htaken := reduceConstExpr_taken hexpr hval
        cases c with
        | refNull type => exact .refNull hexpr
        | refFunc fIdx =>
          obtain ⟨a, ha, -⟩ := bind_eq_ok.mp hc
          exact .refFunc hexpr ha
        | globalGet idx =>
          obtain ⟨hp, mi, hmi, hlt⟩ := htaken
          obtain ⟨a, ha, hc⟩ := bind_eq_ok.mp hc
          obtain ⟨g, hg, hc⟩ := bind_eq_ok.mp hc
          cases hc
          exact .globalGet hp hexpr hmi hlt ha hg hisRef
        | _ =>
          cases hc
          cases hisRef
  · intro h
    cases h with
    | null => exact ⟨nullref, by rw [ElemItem.ref, funcidxRef, if_neg (by simp)]⟩
    | @func fIdx a ha =>
      by_cases hnull : fIdx = nullfidx
      · exact ⟨nullref, by rw [ElemItem.ref, funcidxRef, if_neg (not_not.mpr hnull)]⟩
      · refine ⟨pf.toRef a, ?_⟩
        rw [ElemItem.ref, funcidxRef, if_pos hnull, ha]
        rfl
    | refNull h =>
      have hreduce : reduceConstExpr pf vm k _ passiveElem = .ok ⟨_, nullref⟩ := reduceConstExpr_of h trivial rfl
      exact ⟨_, exprRef_of hreduce (isConstExpr_refNull h)⟩
    | @refFunc code fIdx a h ha =>
      have hv : ConstInstr.value pf vm k (.refFunc fIdx) = .ok ⟨.funcref, pf.toRef a⟩ := by
        rw [ConstInstr.value, ha]
        rfl
      exact ⟨_, exprRef_of (reduceConstExpr_of h trivial hv) rfl⟩
    | @globalGet code idx mi a g hp h hmi hidx ha hg href =>
      have hv : ConstInstr.value pf vm k (.globalGet idx) = .ok ⟨g.glob.valtype, g.gvalue⟩ := by
        rw [ConstInstr.value, ha, ok_bind, hg]
        rfl
      exact ⟨_, exprRef_of (reduceConstExpr_of h ⟨hp, mi, hmi, hidx⟩ hv) href⟩

/-! ### Writes to tables do not matter for the items -/

theorem global_congr (hg : vm'.part (·.globals) = vm.part (·.globals)) (a : Addr) : vm'.global a = vm.global a := by
  unfold Vm.global
  have hentry : vm'.instances[a.inst]?.bind (·.globals[a.idx]?) = vm.instances[a.inst]?.bind (·.globals[a.idx]?) :=
    congrFun hg a
  rw [hentry]

/-- What of an instance its shape decides can be read off in both VMs. -/
theorem inst_bind_congr {α β : Type} {g : ModuleInst → β} (hg : ∀ mi, g mi.shape = g mi)
    (hs : vm'.shape = vm.shape) (f : β → R α) :
    (vm'.inst k >>= fun mi => f (g mi)) = (vm.inst k >>= fun mi => f (g mi)) := by
  have hmap := Vm.map_eq_of_shape hg hs k
  unfold Vm.inst
  cases h' : vm'.instances[k]? with
  | none =>
    rw [h'] at hmap
    rw [Option.map_eq_none_iff.mp hmap.symm]
  | some mi' =>
    rw [h'] at hmap
    obtain ⟨mi, hmi, heq⟩ := Option.map_eq_some_iff.mp hmap.symm
    rw [hmi]
    dsimp only
    rw [ok_bind, ok_bind, heq]

theorem constInstr_congr (hs : vm'.shape = vm.shape) (hg : vm'.part (·.globals) = vm.part (·.globals))
    (op : WasmOpcode) (code : Stream) : constInstr pf vm' k op code = constInstr pf vm k op code := by
  have haddr : ∀ pick : ModuleInst → List (Option Addr), (∀ mi, pick mi.shape = pick mi) →
      vm'.addr pick k = vm.addr pick k := fun _ hpick => funext (Vm.addr_eq_of_shape hpick hs k)
  have hglobal : vm'.global = vm.global := funext (global_congr hg)
  cases op with
  | refFunc =>
    unfold constInstr
    dsimp only
    rw [haddr (fun mi => mi.fAddrs) fun _ => rfl]
  | globalGet =>
    unfold constInstr
    dsimp only
    rw [haddr (fun mi => mi.gAddrs) fun _ => rfl, hglobal]
    apply congrArg
    funext x
    apply inst_bind_congr (g := fun mi => mi.globals.length) _ hs
      fun n => if x.1 ≥ n then err .invalid "Invalid global index" else _
    intro mi
    rw [ModuleInst.shape, List.length_map]
  | _ => rfl

theorem constExprLoop_congr (hs : vm'.shape = vm.shape) (hg : vm'.part (·.globals) = vm.part (·.globals)) (n : ℕ)
    (code : Stream) (valueStack : List TypedValue) :
    constExprLoop pf vm' k passiveElem n code valueStack = constExprLoop pf vm k passiveElem n code valueStack := by
  have hinstr : constInstr pf vm' k = constInstr pf vm k := by
    funext op code
    exact constInstr_congr hs hg op code
  induction n generalizing code valueStack with
  | zero => rfl
  | succ n ih =>
    unfold constExprLoop
    simp only [hinstr, ih]

theorem ElemItem.ref_congr (hs : vm'.shape = vm.shape) (hg : vm'.part (·.globals) = vm.part (·.globals)) :
    item.ref pf k passiveElem vm' = item.ref pf k passiveElem vm := by
  cases item with
  | func fIdx =>
    change funcidxRef pf k fIdx vm' = funcidxRef pf k fIdx vm
    unfold funcidxRef
    rw [Vm.addr_eq_of_shape (fun _ => rfl) hs]
  | expr code =>
    change exprRef pf k passiveElem code vm' = exprRef pf k passiveElem code vm
    unfold exprRef reduceConstExpr
    rw [constExprLoop_congr hs hg]

end Items

/-! ### The two loops -/

section Loops
variable {pf : Platform} {k : ℕ} {passiveElem : Bool} {w w' : Vm} {a : Addr} {t : TableInst}

theorem setTable_setTable (vm : Vm) (a : Addr) (xs ys : List ValueU) :
    (vm.setTable a xs).setTable a ys = vm.setTable a ys := by
  have hmodify : ∀ {α : Type} (l : List α) (i : ℕ) (f g h : α → α), g ∘ f = h →
      (l.modify i f).modify i g = l.modify i h := by
    intro α l i f g h heq
    rw [List.modify_modify_eq, heq]
  unfold Vm.setTable Vm.modifyInst
  dsimp only
  congr 1
  apply hmodify
  funext mi
  change { mi with tables := _ } = { mi with tables := _ }
  congr 1
  exact hmodify _ _ _ _ _ rfl

theorem table_setTable (ht : w.table a = .ok t) (tdata : List ValueU) :
    (w.setTable a tdata).table a = .ok { t with tdata := tdata } := by
  rw [part_tables, tables_setTable, editAt, if_pos rfl, part_tables.mp ht]
  rfl

/-- One write. -/
theorem putRef_ok {i : ℕ} {ref : Vm → R ValueU} {v : ValueU} (href : ref w = .ok v) (ht : w.table a = .ok t)
    (hi : i < t.tdata.length) : putRef a i ref w = (.ok (), w.setTable a (t.tdata.set i v)) := by
  unfold putRef
  simp only [Eff.bind_apply, Eff.read, href, ht, if_pos hi]
  rfl

/-- Items that are references are put into the table, all of them. -/
theorem putRefs_all {items : List ElemItem} {vals : List ValueU} {i : ℕ}
    (hvals : List.Forall₂ (fun item v => ElemItem.ref pf k passiveElem item w = .ok v) items vals)
    (ht : w.table a = .ok t) (hfits : i + items.length ≤ t.tdata.length) :
    putRefs a i (items.map (ElemItem.ref pf k passiveElem)) w = (.ok (), w.setTable a (overwrite t.tdata i vals)) := by
  induction items generalizing w t i vals with
  | nil =>
    cases hvals
    rw [overwrite_nil, setTable_self ht]
    rfl
  | cons item items ih =>
    obtain ⟨v, vals, hv, hrest, rfl⟩ := List.forall₂_cons_left_iff.mp hvals
    rw [List.length_cons] at hfits
    have hfirst := putRef_ok (i := i) hv ht (by omega)
    have honly := @tablesOnly_setTable w a (t.tdata.set i v)
    have hvals' : List.Forall₂
        (fun item u => ElemItem.ref pf k passiveElem item (w.setTable a (t.tdata.set i v)) = .ok u) items vals := by
      apply hrest.imp
      intro item' u hu
      rw [ElemItem.ref_congr honly.shape honly.globals]
      exact hu
    have hlast := ih (w := w.setTable a (t.tdata.set i v)) (i := i + 1) hvals' (table_setTable ht _)
      (by rw [List.length_set]; omega)
    rw [List.map_cons, putRefs, Eff.bind_apply, hfirst]
    dsimp only
    rw [hlast]
    dsimp only
    rw [setTable_setTable, overwrite_cons v vals (by omega)]

/-- A loop that comes to its end has found a reference for each item. -/
theorem putRefs_isRef {items : List ElemItem} {i : ℕ}
    (h : putRefs a i (items.map (ElemItem.ref pf k passiveElem)) w = (.ok (), w')) {item : ElemItem}
    (hitem : item ∈ items) : item.IsRef w k passiveElem := by
  induction items generalizing w i with
  | nil => cases hitem
  | cons first items ih =>
    obtain ⟨⟨⟩, w1, hput, hrest⟩ := Eff.bind_ok.mp h
    obtain ⟨v, w2, hreadRef, hput2⟩ := Eff.bind_ok.mp hput
    obtain ⟨hv, rfl⟩ := Eff.read_ok hreadRef
    obtain ⟨t, w3, hreadTable, hset⟩ := Eff.bind_ok.mp hput2
    obtain ⟨-, rfl⟩ := Eff.read_ok hreadTable
    rcases List.mem_cons.mp hitem with rfl | hitem
    · exact (ElemItem.ref_ok_iff pf).mp ⟨v, hv⟩
    · split at hset
      · cases hset
        have honly := @tablesOnly_setTable w3 a (t.tdata.set i v)
        obtain ⟨v', hv'⟩ := (ElemItem.ref_ok_iff pf).mpr (ih hrest hitem)
        rw [ElemItem.ref_congr honly.shape honly.globals] at hv'
        exact (ElemItem.ref_ok_iff pf).mp ⟨v', hv'⟩
      · cases hset

/-- The slice of the items that the code takes, when there are so many. -/
theorem elemRefs_iff {elem : Element} {src size : ℕ} {refs : List (Vm → R ValueU)} (hsize : 0 < size)
    (hfits : src + size ≤ elem.dataLen) :
    elemRefs pf k passiveElem elem src size = .ok refs ↔ src + size ≤ elem.items.length ∧
      refs = ((elem.items.drop src).take size).map (ElemItem.ref pf k passiveElem) := by
  have hslice : ∀ {α : Type} (what : String) (xs : List α) (f : α → ElemItem) (g : α → Vm → R ValueU),
      (∀ x, (f x).ref pf k passiveElem = g x) →
      ((do
        let ys ← vecSlice what xs src size
        .ok (ys.map g)) = Except.ok (ε := Fault) refs ↔ src + size ≤ ((xs.take elem.dataLen).map f).length ∧
          refs = ((((xs.take elem.dataLen).map f).drop src).take size).map (ElemItem.ref pf k passiveElem)) := by
    intro α what xs f g hg
    have hdrop : (((xs.take elem.dataLen).map f).drop src).take size = ((xs.drop src).take size).map f := by
      rw [← List.map_drop, ← List.map_take, List.drop_take, List.take_take, Nat.min_eq_left (by omega)]
    have hmap : (((xs.drop src).take size).map f).map (ElemItem.ref pf k passiveElem) =
        ((xs.drop src).take size).map g := by
      rw [List.map_map]
      apply List.map_congr_left
      intro x _
      exact hg x
    rw [hdrop, hmap, List.length_map, List.length_take]
    unfold vecSlice
    split
    · constructor
      · intro h
        exact absurd h (undef_ne_ok _ _)
      · rintro ⟨hle, -⟩
        omega
    · constructor
      · intro h
        cases h
        exact ⟨by omega, rfl⟩
      · rintro ⟨-, rfl⟩
        rfl
  unfold elemRefs Element.items
  by_cases hfunc : elem.vFuncidx ≠ []
  · rw [if_pos hfunc, if_pos hfunc]
    exact hslice _ _ _ _ fun _ => rfl
  · rw [if_neg hfunc, if_neg hfunc]
    by_cases hexpr : elem.vExpr ≠ []
    · rw [if_pos hexpr]
      exact hslice _ _ _ _ fun _ => rfl
    · rw [if_neg hexpr, if_pos (by omega), not_not.mp hexpr]
      constructor
      · intro h
        exact absurd h (undef_ne_ok _ _)
      · rintro ⟨hle, -⟩
        rw [List.take_nil, List.map_nil, List.length_nil] at hle
        omega

theorem ItemValue.of_ref {item : ElemItem} {v : ValueU} (h : item.ref pf k passiveElem w = .ok v) :
    ItemValue pf w k item v := by
  cases item with
  | func fIdx =>
    have hitem : itemRef pf k (.func fIdx) w = .ok v := h
    exact itemRef_ok hitem
  | expr code =>
    obtain ⟨val, hval, h⟩ := bind_eq_ok.mp h
    split at h
    · exact absurd h (err_ne_ok _ _ _)
    · next href =>
      cases h
      exact .expr (reduceConstExpr_ok hval) (by simpa using href)

/-- Every item from `src` on, `size` of them, is a reference. -/
def Element.RefsFrom (vm : Vm) (k : ℕ) (passiveElem : Bool) (elem : Element) (src size : ℕ) : Prop :=
  ∀ j < size, ∃ item, elem.items[src + j]? = some item ∧ item.IsRef vm k passiveElem

theorem refsFrom_iff {elem : Element} {src size : ℕ} (hsize : 0 < size) :
    elem.RefsFrom w k passiveElem src size ↔ src + size ≤ elem.items.length ∧
      ∀ item ∈ (elem.items.drop src).take size, item.IsRef w k passiveElem := by
  constructor
  · intro h
    refine ⟨?_, fun item hitem => ?_⟩
    · obtain ⟨item, hget, -⟩ := h (size - 1) (by omega)
      have hlt := (List.getElem?_eq_some_iff.mp hget).1
      omega
    · obtain ⟨j, hj⟩ := List.mem_iff_getElem?.mp hitem
      rw [List.getElem?_take, List.getElem?_drop] at hj
      split at hj
      · next hlt =>
        obtain ⟨item', hget, hitem'⟩ := h j hlt
        obtain rfl := Option.some.inj (hget.symm.trans hj)
        exact hitem'
      · cases hj
  · rintro ⟨hle, h⟩ j hj
    have hlt : src + j < elem.items.length := by omega
    refine ⟨elem.items[src + j], List.getElem?_eq_getElem hlt, h _ ?_⟩
    apply List.mem_of_getElem? (i := j)
    rw [List.getElem?_take, if_pos hj, List.getElem?_drop, List.getElem?_eq_getElem hlt]

theorem exists_refs (pf : Platform) {items : List ElemItem} (h : ∀ item ∈ items, item.IsRef w k passiveElem) :
    ∃ vals, List.Forall₂ (fun item v => ElemItem.ref pf k passiveElem item w = .ok v) items vals := by
  induction items with
  | nil => exact ⟨[], .nil⟩
  | cons item items ih =>
    obtain ⟨v, hv⟩ := (ElemItem.ref_ok_iff pf).mpr (h item List.mem_cons_self)
    obtain ⟨vals, hvals⟩ := ih fun item' hitem' => h item' (List.mem_cons_of_mem _ hitem')
    exact ⟨v :: vals, .cons hv hvals⟩

end Loops

/-! ### `table.init` -/

section TableInit
variable {pf : Platform} {k elemIdx tableIdx : ℕ} {s : ExecState} {a : Addr} {t : TableInst} {mi : ModuleInst}
  {elem : Element} {dropped : Bool} {size src dst : ValueU}

/-- All of the items from `src` on go into the table, or the table stays as it is. It only fails if one
of the ranges is too long or the segment has been dropped. -/
def Element.InitsWhole (pf : Platform) (k : ℕ) (elem : Element) (dropped : Bool) (a : Addr) (t : TableInst)
    (size src dst : ℕ) (s : ExecState) (out : Except Fault (List ValueU) × ExecState) : Prop :=
  ((∃ vals, List.Forall₂ (ItemValue pf s.vm k) ((elem.items.drop src).take size) vals ∧ vals.length = size ∧
      out = (.ok [], { s with vm := s.vm.setTable a (overwrite t.tdata dst vals) })) ∨ out.2.vm.table a = .ok t) ∧
    ((∃ e, out.1 = .error e) → elem.dataLen < src + size ∨ t.tdata.length < dst + size ∨ dropped = true)

theorem tableInit_run (ht : s.vm.TableAt k tableIdx a t) (hmi : s.vm.inst k = .ok mi)
    (helem : mi.mod.elements[elemIdx]? = some elem) (hdropped : mi.droppedElements[elemIdx]? = some dropped) :
    effect pf k (.tableInit elemIdx tableIdx) [size, src, dst] s =
      (if lo32 src + lo32 size > elem.dataLen ∨ lo32 dst + lo32 size > t.tdata.length then trap "Invalid table access"
      else if lo32 size = 0 then pure []
      else if dropped then trap "Element has been dropped"
      else do
        let refs ← Eff.lift (elemRefs pf k true elem (lo32 src) (lo32 size))
        onVm (putRefs a (lo32 dst) refs)
        pure []) s := by
  simp only [effect, arg3, tableInit, Eff.bind_apply, tabInst_apply ht.1 ht.2, ofVm, Eff.read, hmi, helem, hdropped]

theorem tableInit_whole (ht : s.vm.TableAt k tableIdx a t) (hmi : s.vm.inst k = .ok mi)
    (helem : mi.mod.elements[elemIdx]? = some elem) (hdropped : mi.droppedElements[elemIdx]? = some dropped) :
    elem.InitsWhole pf k dropped a t (lo32 size) (lo32 src) (lo32 dst) s
        (effect pf k (.tableInit elemIdx tableIdx) [size, src, dst] s) ↔
      elem.dataLen < lo32 src + lo32 size ∨ t.tdata.length < lo32 dst + lo32 size ∨ dropped = true ∨
        elem.RefsFrom s.vm k true (lo32 src) (lo32 size) := by
  rw [tableInit_run ht hmi helem hdropped]
  by_cases hout : lo32 src + lo32 size > elem.dataLen ∨ lo32 dst + lo32 size > t.tdata.length
  · rw [if_pos hout]
    apply iff_of_true
    · exact ⟨Or.inr ht.2, fun _ => hout.imp_right Or.inl⟩
    · exact hout.imp_right Or.inl
  rw [if_neg hout]
  by_cases hsize : lo32 size = 0
  · rw [if_pos hsize]
    apply iff_of_true
    · refine ⟨Or.inr ht.2, ?_⟩
      rintro ⟨e, he⟩
      cases he
    · refine Or.inr (Or.inr (Or.inr fun j hj => ?_))
      omega
  rw [if_neg hsize]
  cases dropped with
  | true =>
    apply iff_of_true
    · exact ⟨Or.inr ht.2, fun _ => Or.inr (Or.inr rfl)⟩
    · exact Or.inr (Or.inr (Or.inl rfl))
  | false =>
    rw [if_neg (by decide)]
    have hfits : lo32 src + lo32 size ≤ elem.dataLen := by omega
    constructor
    · rintro ⟨-, hfails⟩
      refine Or.inr (Or.inr (Or.inr ?_))
      -- the handler does not fail, so the loop has come to its end
      generalize hres : (do
        let refs ← Eff.lift (elemRefs pf k true elem (lo32 src) (lo32 size))
        onVm (putRefs a (lo32 dst) refs)
        pure [] : Exec (List ValueU)) s = out at hfails
      obtain ⟨res, s'⟩ := out
      cases res with
      | error e =>
        rcases hfails ⟨e, rfl⟩ with hlong | hlong | hflag
        · omega
        · omega
        · cases hflag
      | ok results =>
        obtain ⟨refs, s1, hrefs, hrest⟩ := Eff.bind_ok.mp hres
        obtain ⟨hslice, rfl⟩ := Eff.lift_ok hrefs
        obtain ⟨⟨⟩, s2, hput, -⟩ := Eff.bind_ok.mp hrest
        obtain ⟨hle, rfl⟩ := (elemRefs_iff (by omega) hfits).mp hslice
        refine (refsFrom_iff (by omega)).mpr ⟨hle, fun item hitem => ?_⟩
        unfold onVm at hput
        dsimp only at hput
        have hloop := Prod.ext_iff.mp hput
        exact putRefs_isRef (Prod.ext hloop.1 rfl) hitem
    · rintro (hlong | hlong | hflag | hitems)
      · omega
      · omega
      · cases hflag
      · obtain ⟨hle, hrefs⟩ := (refsFrom_iff (by omega)).mp hitems
        obtain ⟨vals, hvals⟩ := exists_refs pf hrefs
        have hlen : ((elem.items.drop (lo32 src)).take (lo32 size)).length = lo32 size := by
          rw [List.length_take, List.length_drop]
          omega
        have hloop := putRefs_all (i := lo32 dst) hvals ht.2 (by omega)
        have hslice : elemRefs pf k true elem (lo32 src) (lo32 size) = .ok _ :=
          (elemRefs_iff (by omega) hfits).mpr ⟨hle, rfl⟩
        simp only [Eff.bind_apply, Eff.lift, hslice, onVm, hloop]
        refine ⟨Or.inl ⟨vals, ?_, ?_, rfl⟩, ?_⟩
        · exact hvals.imp fun _ _ hv => .of_ref hv
        · rw [← hvals.length_eq, hlen]
        · rintro ⟨e, he⟩
          cases he

end TableInit

/-! ### `module_inst_init_elem` -/

section InitElem
variable {pf : Platform} {k : ℕ} {mod : Module} {elem : Element} {w : Vm} {a : Addr} {offset : ℕ} {t : TableInst}

/-- An active segment passes the tests in front of the loop. -/
def Element.Fits (pf : Platform) (k : ℕ) (mod : Module) (elem : Element) (w : Vm) (a : Addr) (offset : ℕ)
    (t : TableInst) : Prop :=
  ∃ mi, w.inst k = .ok mi ∧ elem.tableidx < mi.tAddrs.length ∧ elem.tableidx < mod.tables.length ∧
    w.TableAt k elem.tableidx a t ∧
    (if elem.offsetExpr = [] then .ok 0
      else offsetOf pf k "Incorrect element constexpr return type" elem.offsetExpr w) = .ok offset ∧
    offset + elem.dataLen ≤ t.tdata.length ∧ elem.dataLen ≤ elem.items.length

/-- No entry of the segment is written, or all of them are. -/
def Element.AppliedWhole (pf : Platform) (k : ℕ) (mod : Module) (elem : Element) (w : Vm)
    (out : Except Fault Unit × Vm) : Prop :=
  (∀ b j, ¬ elem.WritesEntry pf k mod w b j) ∨ ∃ a offset t vals, elem.Fits pf k mod w a offset t ∧
    List.Forall₂ (ItemValue pf w k) elem.items vals ∧ vals.length = elem.dataLen ∧
    out = (.ok (), w.setTable a (overwrite t.tdata offset vals))

theorem items_length_le (elem : Element) : elem.items.length ≤ elem.dataLen := by
  unfold Element.items
  split
  · rw [List.length_map, List.length_take]
    exact Nat.min_le_left _ _
  · rw [List.length_map, List.length_take]
    exact Nat.min_le_left _ _

theorem elemRefs_all (hlen : elem.dataLen ≤ elem.items.length) :
    elemRefs pf k false elem 0 elem.dataLen = .ok (elem.items.map (ElemItem.ref pf k false)) := by
  by_cases hzero : elem.dataLen = 0
  · have hnil : elem.items = [] := by
      have hle := items_length_le elem
      exact List.eq_nil_of_length_eq_zero (by omega)
    rw [hnil, hzero]
    unfold elemRefs vecSlice
    rw [hzero]
    split
    · rw [if_neg (Nat.not_lt_zero _)]
      rfl
    · split
      · rw [if_neg (Nat.not_lt_zero _)]
        rfl
      · rfl
  · apply (elemRefs_iff (by omega) (by omega)).mpr
    refine ⟨by omega, ?_⟩
    rw [List.drop_zero, List.take_of_length_le (items_length_le elem)]

/-- Behind the tests there is only the loop. -/
theorem Element.Fits.run (h : elem.Fits pf k mod w a offset t) :
    initElemActive pf k mod elem w = putRefs a offset (elem.items.map (ElemItem.ref pf k false)) w := by
  obtain ⟨mi, hmi, hlt, hlt', ⟨haddr, ht⟩, hoffset, hfits, hlen⟩ := h
  have hrefs : elemRefs pf k false elem 0 elem.dataLen = .ok _ := elemRefs_all hlen
  unfold initElemActive
  simp only [Eff.bind_apply, Eff.read, hmi, ge_iff_le, if_neg (Nat.not_le.mpr hlt), haddr,
    if_neg (Nat.not_le.mpr hlt'), hoffset, ht, gt_iff_lt, if_neg (Nat.not_lt.mpr hfits), Eff.lift, hrefs]

/-- What writes an entry has passed the tests, and has items. -/
theorem fits_of_writes {b : Addr} {j : ℕ} (h : elem.WritesEntry pf k mod w b j) :
    ∃ offset t, elem.Fits pf k mod w b offset t ∧ PutsAt b offset (elem.items.map (ElemItem.ref pf k false)) w j := by
  obtain ⟨mi, offset, t, refs, hmi, hlt, hlt', ht, hoffset, hfits, hrefs, hputs⟩ := h
  obtain ⟨-, hlen⟩ := elemRefs_ok hrefs
  rw [elemRefs_all (Nat.le_of_eq hlen.symm)] at hrefs
  cases hrefs
  exact ⟨offset, t, ⟨mi, hmi, hlt, hlt', ht, hoffset, hfits, Nat.le_of_eq hlen.symm⟩, hputs⟩

/-- If anything is put into the table, the first item is a reference. -/
theorem first_of_putsAt {items : List ElemItem} {j : ℕ}
    (h : PutsAt a offset (items.map (ElemItem.ref pf k false)) w j) :
    ∃ item, items[0]? = some item ∧ item.IsRef w k false := by
  obtain ⟨ref, w1, ⟨done, rest, hsplit, hdone⟩, hput⟩ := h
  have hread : ∀ {ref : Vm → R ValueU} {i : ℕ} {w2 : Vm}, (putRef a i ref w2).1 = .ok () → ∃ v, ref w2 = .ok v := by
    intro ref i w2 hok
    have heq : putRef a i ref w2 = (.ok (), (putRef a i ref w2).2) := Prod.ext hok rfl
    obtain ⟨v, w3, hreadRef, -⟩ := Eff.bind_ok.mp heq
    exact ⟨v, (Eff.read_ok hreadRef).1⟩
  cases items with
  | nil =>
    rw [List.map_nil, List.zipIdx_nil] at hsplit
    exact absurd hsplit (by simp)
  | cons item items =>
    refine ⟨item, rfl, ?_⟩
    rw [List.map_cons, List.zipIdx_cons] at hsplit
    cases done with
    | nil =>
      rw [List.nil_append] at hsplit
      obtain ⟨hhead, -⟩ := List.cons.inj hsplit
      cases hhead
      cases hdone
      exact (ElemItem.ref_ok_iff pf).mp (hread hput)
    | cons x done =>
      rw [List.cons_append] at hsplit
      obtain ⟨rfl, -⟩ := List.cons.inj hsplit
      obtain ⟨⟨⟩, w2, hfirst, -⟩ := Eff.bind_ok.mp hdone
      exact (ElemItem.ref_ok_iff pf).mp (hread (congrArg Prod.fst hfirst))

theorem initElemActive_whole : elem.AppliedWhole pf k mod w (initElemActive pf k mod elem w) ↔
    ∀ a offset t, elem.Fits pf k mod w a offset t → elem.RefsFrom w k false 0 1 →
      elem.RefsFrom w k false 0 elem.dataLen := by
  constructor
  · intro h a offset t hfits hfirst
    by_cases hzero : elem.dataLen = 0
    · intro j hj
      omega
    obtain ⟨item, hitem, hisRef⟩ := hfirst 0 (by omega)
    obtain ⟨mi, hmi, hlt, hlt', ⟨haddr, ht⟩, hoffset, hroom, hlen⟩ := id hfits
    rcases h with hnone | ⟨a', offset', t', vals, hfits', hvals, hcount, hout⟩
    · -- the first entry is written
      obtain ⟨v, hv⟩ := (ElemItem.ref_ok_iff pf).mpr hisRef
      obtain ⟨rest, hcons⟩ : ∃ rest, elem.items = item :: rest := by
        cases hitems : elem.items with
        | nil =>
          rw [hitems] at hitem
          cases hitem
        | cons first rest =>
          rw [hitems] at hitem
          cases hitem
          exact ⟨rest, rfl⟩
      refine absurd ⟨mi, offset, t, _, hmi, hlt, hlt', ⟨haddr, ht⟩, hoffset, hroom, elemRefs_all hlen, ?_⟩
        (hnone a offset)
      rw [hcons, List.map_cons]
      refine ⟨_, w, ?_, congrArg Prod.fst (putRef_ok hv ht (by omega))⟩
      rw [List.zipIdx_cons]
      exact .head ..
    · rw [hfits.run] at hout
      refine (refsFrom_iff (by omega)).mpr ⟨by omega, fun item' hitem' => ?_⟩
      exact putRefs_isRef hout (List.mem_of_mem_drop (List.mem_of_mem_take hitem'))
  · intro h
    by_cases hex : ∃ a offset t, elem.Fits pf k mod w a offset t
    · obtain ⟨a, offset, t, hfits⟩ := hex
      by_cases hfirst : elem.RefsFrom w k false 0 1
      · right
        have hall := h a offset t hfits hfirst
        obtain ⟨mi, -, -, -, ⟨-, ht⟩, -, hroom, hlen⟩ := id hfits
        have hle := items_length_le elem
        obtain ⟨vals, hvals⟩ : ∃ vals, List.Forall₂ (fun item v => ElemItem.ref pf k false item w = .ok v)
            elem.items vals := by
          apply exists_refs
          intro item hitem
          obtain ⟨j, hj⟩ := List.mem_iff_getElem?.mp hitem
          obtain ⟨item', hget, hisRef⟩ := hall j (by have := (List.getElem?_eq_some_iff.mp hj).1; omega)
          rw [Nat.zero_add] at hget
          obtain rfl := Option.some.inj (hget.symm.trans hj)
          exact hisRef
        refine ⟨a, offset, t, vals, hfits, hvals.imp fun _ _ hv => .of_ref hv, ?_, ?_⟩
        · rw [← hvals.length_eq]
          omega
        · rw [hfits.run]
          exact putRefs_all hvals ht (by omega)
      · left
        intro b j hwrites
        obtain ⟨offset', t', -, hputs⟩ := fits_of_writes hwrites
        obtain ⟨item, hitem, hisRef⟩ := first_of_putsAt hputs
        apply hfirst
        intro j hj
        obtain rfl : j = 0 := by omega
        exact ⟨item, hitem, hisRef⟩
    · left
      intro b j hwrites
      obtain ⟨offset, t, hfits, -⟩ := fits_of_writes hwrites
      exact hex ⟨b, offset, t, hfits⟩

end InitElem

/-- `table.init` is atomic, and fails for the two reasons only, if and only if it fails for one of them or
the items that it takes are references. The application of an active segment is atomic if and only if a test
in front of the loop fails, the first item is no reference, or all are. -/
theorem element_application (pf : Platform) :
    (∀ (k elemIdx tableIdx : ℕ) (s : ExecState) (a : Addr) (t : TableInst) (mi : ModuleInst) (elem : Element)
        (dropped : Bool) (size src dst : ValueU), s.vm.TableAt k tableIdx a t → s.vm.inst k = .ok mi →
      mi.mod.elements[elemIdx]? = some elem → mi.droppedElements[elemIdx]? = some dropped →
      (elem.InitsWhole pf k dropped a t (lo32 size) (lo32 src) (lo32 dst) s
          (effect pf k (.tableInit elemIdx tableIdx) [size, src, dst] s) ↔
        elem.dataLen < lo32 src + lo32 size ∨ t.tdata.length < lo32 dst + lo32 size ∨ dropped = true ∨
          elem.RefsFrom s.vm k true (lo32 src) (lo32 size))) ∧
    ∀ (k : ℕ) (mod : Module) (elem : Element) (w : Vm), elem.AppliedWhole pf k mod w (initElemActive pf k mod elem w) ↔
      ∀ a offset t, elem.Fits pf k mod w a offset t → elem.RefsFrom w k false 0 1 →
        elem.RefsFrom w k false 0 elem.dataLen := by
  constructor
  · intro k elemIdx tableIdx s a t mi elem dropped size src dst ht hmi helem hdropped
    exact tableInit_whole ht hmi helem hdropped
  · intro k mod elem w
    exact initElemActive_whole

/-! ### A segment with an item that is no reference -/

/-- The passive segment holds `ref.func 0` and `i32.const 0`; the function puts both into the table. -/
def lazyModule : Module where
  names := [[]]
  formatVersion := 1
  funcTypes := [{}]
  funcs := [{ linkage := { exported := true }, code := [0x41, 0, 0x41, 0, 0x41, 2, 0xfc, 0x0c, 0, 0, 0x0b] }]
  tables := [{ valtype := .funcref, lim := ⟨2, u32Max⟩ }]
  exports := [{ name := [0x66], externalKind := .func, externalIdx := 0 }]
  elements := [{ mode := .passive, valtype := .funcref, dataLen := 2, vExpr := [[0xd2, 0, 0x0b], [0x41, 0, 0x0b]] }]

theorem loaded_lazyModule : Loaded lazyModule := by
  have hmod : moduleInit [0x00, 0x61, 0x73, 0x6d, 1, 0, 0, 0, 1, 4, 1, 0x60, 0, 0, 3, 2, 1, 0, 4, 4, 1, 0x70, 0, 2,
      7, 5, 1, 1, 0x66, 0, 0, 9, 10, 1, 5, 0x70, 2, 0xd2, 0, 0x0b, 0x41, 0, 0x0b,
      10, 14, 1, 12, 0, 0x41, 0, 0x41, 0, 0x41, 2, 0xfc, 0x0c, 0, 0, 0x0b] [] = .ok lazyModule := by rfl
  exact .init hmod

/-- The instance of the module, with these entries in its table. -/
def lazyVm (tdata : List ValueU) : Vm where
  instances := [{ moduleInstNew 0 { lazyModule with funcs := lazyModule.funcs.map ({ · with stackSizeMax := 3 }) } with
    state := .ready
    tables := [{ tab := { valtype := .funcref, lim := ⟨2, u32Max⟩ }, tdata := tdata }]
    fAddrs := [some ⟨0, 0⟩]
    tAddrs := [some ⟨0, 0⟩] }]

def lazyRunning (pc : ℤ) (stack : List ValueU) : Running where
  frames := [⟨⟨0, 0⟩, ⟨⟨pc, 0⟩, stack⟩, [], 0⟩]
  thread := { frameDepth := 1, stackSize := 3 }
  cont := .invoke {}

/-- The function has come to its `table.init`. -/
theorem lazyVm_reached : ReflTransGen (SysStep idle Loaded) {}
    ⟨lazyVm [nullref, nullref], some (lazyRunning 6 [2, 0, 0])⟩ := by
  have hinst : instantiateStep idle {} 0 lazyModule = .ok { vm := lazyVm [nullref, nullref] } := by decide +kernel
  have hcall : callInThread (lazyVm [nullref, nullref]) {} ⟨0, 0⟩ [] .invoke = .ok (lazyRunning 0 []) := by
    decide +kernel
  have hdst : runStep idle (lazyVm [nullref, nullref]) (lazyRunning 0 []) =
      .ok ⟨lazyVm [nullref, nullref], some (lazyRunning 2 [0])⟩ := by decide +kernel
  have hsrc : runStep idle (lazyVm [nullref, nullref]) (lazyRunning 2 [0]) =
      .ok ⟨lazyVm [nullref, nullref], some (lazyRunning 4 [0, 0])⟩ := by decide +kernel
  have hsize : runStep idle (lazyVm [nullref, nullref]) (lazyRunning 4 [0, 0]) =
      .ok ⟨lazyVm [nullref, nullref], some (lazyRunning 6 [2, 0, 0])⟩ := by decide +kernel
  have hexport : (lazyVm [nullref, nullref]).findModuleFunc 0 [0x66] = some ⟨0, 0⟩ := by decide +kernel
  have hinvoked := (ReflTransGen.single (SysStep.instantiate loaded_lazyModule hinst)).tail (.invoke hexport hcall)
  exact ((hinvoked.tail (.run hdst)).tail (.run hsrc)).tail (.run hsize)

theorem element_application_lazy : ∃ elem, lazyModule.elements[0]? = some elem ∧
    elem.InitsWhole idle 0 false ⟨0, 0⟩
      { tab := { valtype := .funcref, lim := ⟨2, u32Max⟩ }, tdata := [nullref, nullref] }
      1 0 0 ⟨lazyVm [nullref, nullref], []⟩
      (effect idle 0 (.tableInit 0 0) [1, 0, 0] ⟨lazyVm [nullref, nullref], []⟩) := by
  refine ⟨_, rfl, ?_⟩
  refine ((element_application idle).1 0 0 0 ⟨lazyVm [nullref, nullref], []⟩ ⟨0, 0⟩ _ _ _ false 1 0 0
    ⟨rfl, rfl⟩ rfl rfl rfl).mpr (Or.inr (Or.inr (Or.inr ?_)))
  intro j hj
  change j < 1 at hj
  obtain rfl : j = 0 := by omega
  refine ⟨_, rfl, (ElemItem.ref_ok_iff idle).mp ⟨0, ?_⟩⟩
  decide +kernel

/-- The first entry has been written when the second item turns out not to be a reference. -/
theorem lazy_item_found : ReflTransGen (SysStep idle Loaded) {}
      ⟨lazyVm [nullref, nullref], some (lazyRunning 6 [2, 0, 0])⟩ ∧ ∃ fr t mi elem,
    System.ExecutesOn ⟨lazyVm [nullref, nullref], some (lazyRunning 6 [2, 0, 0])⟩ fr (.tableInit 0 0) [2, 0, 0] ∧
    (lazyVm [nullref, nullref]).TableAt 0 0 ⟨0, 0⟩ t ∧ (lazyVm [nullref, nullref]).inst 0 = .ok mi ∧
    mi.state = .ready ∧ mi.mod.elements[0]? = some elem ∧ mi.droppedElements[0]? = some false ∧
    (effect idle 0 (.tableInit 0 0) [2, 0, 0] ⟨lazyVm [nullref, nullref], fr.locals⟩).2.vm.table ⟨0, 0⟩ =
      .ok { t with tdata := [idle.toRef ⟨0, 0⟩, nullref] } ∧
    ¬ elem.InitsWhole idle 0 false ⟨0, 0⟩ t (lo32 2) (lo32 0) (lo32 0) ⟨lazyVm [nullref, nullref], fr.locals⟩
      (effect idle 0 (.tableInit 0 0) [2, 0, 0] ⟨lazyVm [nullref, nullref], fr.locals⟩) := by
  have hexec : System.ExecutesOn ⟨lazyVm [nullref, nullref], some (lazyRunning 6 [2, 0, 0])⟩
      ⟨⟨0, 0⟩, ⟨⟨6, 0⟩, [2, 0, 0]⟩, [], 0⟩ (.tableInit 0 0) [2, 0, 0] :=
    ⟨_, [], _, ⟨⟨10, 0⟩, [2, 0, 0]⟩, rfl, rfl, rfl, by decide +kernel, rfl⟩
  refine ⟨lazyVm_reached, _, _, _, _, hexec, ⟨rfl, rfl⟩, rfl, rfl, rfl, rfl, by decide +kernel, ?_⟩
  rintro ⟨-, hfails⟩
  have herr : (effect idle 0 (.tableInit 0 0) [2, 0, 0] ⟨lazyVm [nullref, nullref], []⟩).1 =
      .error (.err .malformed "illegal opcode") := by decide +kernel
  rcases hfails ⟨_, herr⟩ with hlong | hlong | hflag
  · exact absurd hlong (by decide)
  · exact absurd hlong (by decide)
  · cases hflag

end Silverfir

import Silverfir.ConstExpr
import Silverfir.Parts
import Silverfir.Calls

/-! What an instantiation writes: the values of the globals, and the active segments, one after the
other. -/
namespace Silverfir

/-- Values and where they go. -/
structure Placed (α : Type) where
  addr : Addr
  offset : ℕ
  items : List α
  deriving DecidableEq, Repr

/-- What a segment makes of the contents at an address. -/
def Placed.put {α : Type} (a : Addr) (data : List α) (s : Placed α) : List α :=
  if s.addr = a then InPlaceDt.overwrite data s.offset s.items else data

/-- The contents at an address after the segments, in order. -/
def overwritten {α : Type} (segs : List (Placed α)) (a : Addr) (data : List α) : List α :=
  segs.foldl (Placed.put a) data

/-- An item of an element segment. -/
inductive ElemItem where
  | func (fIdx : ℕ)
  | expr (expr : Str)
  deriving DecidableEq, Repr

def Element.items (elem : Element) : List ElemItem :=
  if elem.vFuncidx ≠ [] then (elem.vFuncidx.take elem.dataLen).map .func
  else (elem.vExpr.take elem.dataLen).map .expr

section Segments
variable (pf : Platform) (vm : Vm) (k : ℕ)

/-- The reference that an item stands for. -/
inductive ItemValue : ElemItem → ValueU → Prop
  | null : ItemValue (.func nullfidx) nullref
  | func {fIdx a} (hne : fIdx ≠ nullfidx) (ha : vm.addr (·.fAddrs) k fIdx = .ok a) : ItemValue (.func fIdx) (pf.toRef a)
  | expr {expr v} (h : ConstValue pf vm k expr v) (href : v.type.isRef = true) : ItemValue (.expr expr) v.val

/-- An offset expression has an `i32` value, taken as a `u32`. -/
def OffsetValue (expr : Str) (offset : ℕ) : Prop :=
  ∃ v, ConstValue pf vm k expr v ∧ v.type = .i32 ∧ offset = InPlaceDt.lo32 v.val

/-- Where an active element segment goes. -/
structure ElemPlaced (elem : Element) (s : Placed ValueU) : Prop where
  addr : vm.addr (·.tAddrs) k elem.tableidx = .ok s.addr
  offset : elem.offsetExpr = [] ∧ s.offset = 0 ∨ OffsetValue pf vm k elem.offsetExpr s.offset
  items : List.Forall₂ (ItemValue pf vm k) elem.items s.items
  fits : ∃ t, vm.part (·.tables) s.addr = some t ∧ s.offset + s.items.length ≤ t.tdata.length

/-- Where an active data segment goes. -/
structure DataPlaced (d : Data) (s : Placed UInt8) : Prop where
  addr : vm.addr (·.mAddrs) k d.memidx = .ok s.addr
  offset : OffsetValue pf vm k d.offsetExpr s.offset
  items : s.items = d.bytes
  fits : ∃ m, vm.part (·.memories) s.addr = some m ∧ s.offset + s.items.length ≤ m.mdata.length

end Segments

/-! ### Values in other states of the VM -/

section Congr
variable {pf : Platform} {vm vm' : Vm} {k : ℕ}

theorem ConstValue.congr {expr : Str} {v : TypedValue} (h : ConstValue pf vm k expr v) (hs : vm'.shape = vm.shape)
    (hg : ∀ idx a, IsConstExpr expr (.globalGet idx) → vm.addr (·.gAddrs) k idx = .ok a →
      vm'.part (·.globals) a = vm.part (·.globals) a) : ConstValue pf vm' k expr v := by
  obtain ⟨c, hc, hv⟩ := h
  refine ⟨c, hc, ?_⟩
  cases c with
  | refFunc fIdx =>
    rw [ConstInstr.value, Vm.addr_eq_of_shape (fun _ => rfl) hs]
    exact hv
  | globalGet idx =>
    simp only [ConstInstr.value, bind_eq_ok] at hv ⊢
    obtain ⟨a, ha, g, hglob, hv⟩ := hv
    refine ⟨a, ?_, g, ?_, hv⟩
    · rw [Vm.addr_eq_of_shape (fun _ => rfl) hs]
      exact ha
    · rw [part_globals, hg idx a hc ha]
      exact part_globals.mp hglob
  | _ => exact hv

theorem ConstValue.keep {expr : Str} {v : TypedValue} (h : ConstValue pf vm k expr v) (hs : vm'.shape = vm.shape)
    (hg : vm'.part (·.globals) = vm.part (·.globals)) : ConstValue pf vm' k expr v :=
  h.congr hs fun _ a _ _ => congrFun hg a

theorem OffsetValue.keep {expr : Str} {offset : ℕ} (h : OffsetValue pf vm k expr offset) (hs : vm'.shape = vm.shape)
    (hg : vm'.part (·.globals) = vm.part (·.globals)) : OffsetValue pf vm' k expr offset := by
  obtain ⟨v, hv, hrest⟩ := h
  exact ⟨v, hv.keep hs hg, hrest⟩

theorem ItemValue.keep {item : ElemItem} {v : ValueU} (h : ItemValue pf vm k item v) (hs : vm'.shape = vm.shape)
    (hg : vm'.part (·.globals) = vm.part (·.globals)) : ItemValue pf vm' k item v := by
  cases h with
  | null => exact .null
  | func hne ha =>
    refine .func hne ?_
    rw [Vm.addr_eq_of_shape (fun _ => rfl) hs]
    exact ha
  | expr h href => exact .expr (h.keep hs hg) href

/-- The tables have kept their lengths. -/
theorem ElemPlaced.keep {elem : Element} {s : Placed ValueU} (h : ElemPlaced pf vm k elem s) (hs : vm'.shape = vm.shape)
    (hg : vm'.part (·.globals) = vm.part (·.globals))
    (hlen : ∀ a t, vm.part (·.tables) a = some t →
      ∃ t', vm'.part (·.tables) a = some t' ∧ t'.tdata.length = t.tdata.length) : ElemPlaced pf vm' k elem s where
  addr := by
    rw [Vm.addr_eq_of_shape (fun _ => rfl) hs]
    exact h.addr
  offset := h.offset.imp_right fun ho => ho.keep hs hg
  items := h.items.imp fun _ _ hi => hi.keep hs hg
  fits := by
    obtain ⟨t, ht, hfits⟩ := h.fits
    obtain ⟨t', ht', heq⟩ := hlen s.addr t ht
    exact ⟨t', ht', by rw [heq]; exact hfits⟩

theorem DataPlaced.keep {d : Data} {s : Placed UInt8} (h : DataPlaced pf vm k d s) (hs : vm'.shape = vm.shape)
    (hg : vm'.part (·.globals) = vm.part (·.globals))
    (hlen : ∀ a m, vm.part (·.memories) a = some m →
      ∃ m', vm'.part (·.memories) a = some m' ∧ m'.mdata.length = m.mdata.length) : DataPlaced pf vm' k d s where
  addr := by
    rw [Vm.addr_eq_of_shape (fun _ => rfl) hs]
    exact h.addr
  offset := h.offset.keep hs hg
  items := h.items
  fits := by
    obtain ⟨m, hm, hfits⟩ := h.fits
    obtain ⟨m', hm', heq⟩ := hlen s.addr m hm
    exact ⟨m', hm', by rw [heq]; exact hfits⟩

end Congr

/-! ### Globals -/

section Globals
variable {pf : Platform} {k : ℕ} {mod : Module} {w w' : Vm}

theorem initGlobal_effect {x : ℕ × Global} (h : initGlobal pf k mod x w = (.ok (), w')) :
    (x.1 < mod.importedGlobalCount ∧ w' = w) ∨
    (mod.importedGlobalCount ≤ x.1 ∧ ∃ v, ConstValue pf w k x.2.expr v ∧ v.type = x.2.valtype ∧
      w' = w.setGlobal ⟨k, x.1⟩ v.val) := by
  rw [initGlobal] at h
  split at h
  · next hlt =>
    cases h
    exact .inl ⟨hlt, rfl⟩
  · next hge =>
    obtain ⟨v, w1, hread, hset⟩ := Eff.bind_ok.mp h
    obtain ⟨hv, rfl⟩ := Eff.read_ok hread
    split at hset
    · cases hset
    · next hty =>
      cases hset
      exact .inr ⟨Nat.not_lt.mp hge, v, reduceConstExpr_ok hv, (not_not.mp hty).symm, rfl⟩

/-- The loop over the globals. No initialiser reads a global of the instance itself. -/
theorem initGlobals_effect {xs : List (ℕ × Global)} (hnodup : (xs.map Prod.fst).Nodup)
    (hout : ∀ x ∈ xs, mod.importedGlobalCount ≤ x.1 → ∀ idx a, IsConstExpr x.2.expr (.globalGet idx) →
      w.addr (·.gAddrs) k idx = .ok a → a.inst ≠ k)
    (h : Eff.each (initGlobal pf k mod) xs w = (.ok (), w')) :
    GlobalsOnly w w' ∧
    (∀ a : Addr, a.inst ≠ k ∨ a.idx ∉ xs.map Prod.fst → w'.part (·.globals) a = w.part (·.globals) a) ∧
    ∀ x ∈ xs, mod.importedGlobalCount ≤ x.1 → ∃ v, ConstValue pf w k x.2.expr v ∧ v.type = x.2.valtype ∧
      w'.part (·.globals) ⟨k, x.1⟩ = (w.part (·.globals) ⟨k, x.1⟩).map ({ · with gvalue := v.val }) := by
  induction xs generalizing w with
  | nil =>
    cases h
    exact ⟨.refl _, fun _ _ => rfl, by simp⟩
  | cons x xs ih =>
    rw [List.map_cons, List.nodup_cons] at hnodup
    obtain ⟨⟨⟩, w1, hx, hrest⟩ := Eff.bind_ok.mp h
    -- what the first round leaves for the others
    have hfirst : GlobalsOnly w w1 ∧ (∀ a : Addr, a ≠ ⟨k, x.1⟩ → w1.part (·.globals) a = w.part (·.globals) a) ∧
        (mod.importedGlobalCount ≤ x.1 → ∃ v, ConstValue pf w k x.2.expr v ∧ v.type = x.2.valtype ∧
          w1.part (·.globals) ⟨k, x.1⟩ = (w.part (·.globals) ⟨k, x.1⟩).map ({ · with gvalue := v.val })) := by
      obtain ⟨hlt, rfl⟩ | ⟨hge, v, hv, hty, rfl⟩ := initGlobal_effect hx
      · exact ⟨.refl _, fun _ _ => rfl, fun hge => absurd hlt (Nat.not_lt.mpr hge)⟩
      · refine ⟨globalsOnly_setGlobal _ _, fun a ha => ?_, fun _ => ⟨v, hv, hty, ?_⟩⟩
        · rw [globals_setGlobal, editAt, if_neg ha]
        · rw [globals_setGlobal, editAt, if_pos rfl]
    obtain ⟨honly, hother, hset⟩ := hfirst
    have haddr : ∀ idx, w1.addr (·.gAddrs) k idx = w.addr (·.gAddrs) k idx :=
      Vm.addr_eq_of_shape (fun _ => rfl) honly.shape k
    have hne : ∀ a : Addr, a.inst ≠ k → a ≠ ⟨k, x.1⟩ := by
      rintro a ha rfl
      exact ha rfl
    obtain ⟨honly', hother', hset'⟩ := ih hnodup.2
      (fun y hy hge idx a hc ha => hout y (List.mem_cons_of_mem _ hy) hge idx a hc (by rw [← haddr]; exact ha)) hrest
    refine ⟨honly.trans honly', fun a ha => ?_, fun y hy hge => ?_⟩
    · rw [List.map_cons, List.mem_cons, not_or] at ha
      have ha1 : a ≠ ⟨k, x.1⟩ := by
        rintro rfl
        exact ha.elim (fun h => h rfl) fun h => h.1 rfl
      rw [hother' a (ha.imp_right fun h => h.2), hother a ha1]
    · obtain rfl | hy := List.mem_cons.mp hy
      · obtain ⟨v, hv, hty, hval⟩ := hset hge
        exact ⟨v, hv, hty, by rw [hother' ⟨k, y.1⟩ (.inr hnodup.1), hval]⟩
      · obtain ⟨v, hv, hty, hval⟩ := hset' y hy hge
        have hyx : y.1 ≠ x.1 := by
          intro heq
          exact hnodup.1 (heq ▸ List.mem_map_of_mem hy)
        refine ⟨v, ?_, hty, ?_⟩
        · refine hv.congr honly.shape.symm fun idx a hc ha => ?_
          rw [haddr] at ha
          exact (hother a (hne a (hout y (List.mem_cons_of_mem _ hy) hge idx a hc ha))).symm
        · rw [hval, hother]
          exact fun heq => hyx (congrArg Addr.idx heq)

end Globals

/-! ### Elements -/

section Elements
variable {pf : Platform} {k : ℕ} {mod : Module} {w w' : Vm}

theorem offsetOf_ok {msg : String} {expr : Str} {offset : ℕ} (h : offsetOf pf k msg expr w = .ok offset) :
    OffsetValue pf w k expr offset := by
  obtain ⟨v, hv, h⟩ := bind_eq_ok.mp h
  split at h
  · simp at h
  · next hty =>
    cases h
    exact ⟨v, reduceConstExpr_ok hv, not_not.mp hty, rfl⟩

/-- The reference of an item as the code finds it. -/
def itemRef (pf : Platform) (k : ℕ) : ElemItem → Vm → R ValueU
  | .func fIdx => funcidxRef pf k fIdx
  | .expr expr => exprRef pf k false expr

theorem itemRef_ok {item : ElemItem} {v : ValueU} (h : itemRef pf k item w = .ok v) : ItemValue pf w k item v := by
  cases item with
  | func fIdx =>
    simp only [itemRef, funcidxRef] at h
    split at h
    · next hne =>
      obtain ⟨a, ha, h⟩ := bind_eq_ok.mp h
      cases h
      exact .func hne ha
    · next heq =>
      cases h
      rw [not_not.mp heq]
      exact .null
  | expr expr =>
    simp only [itemRef, exprRef] at h
    obtain ⟨val, hval, h⟩ := bind_eq_ok.mp h
    split at h
    · simp at h
    · next href =>
      cases h
      exact .expr (reduceConstExpr_ok hval) (by simpa using href)

/-- The items of a segment are as many as `data_len` says. -/
theorem elemRefs_ok {elem : Element} {refs : List (Vm → R ValueU)}
    (h : elemRefs pf k false elem 0 elem.dataLen = .ok refs) :
    refs = elem.items.map (itemRef pf k) ∧ elem.items.length = elem.dataLen := by
  have hslice : ∀ {α : Type} {what : String} {xs ys : List α}, vecSlice what xs 0 elem.dataLen = .ok ys →
      ys = xs.take elem.dataLen ∧ elem.dataLen ≤ xs.length := by
    intro α what xs ys hs
    rw [vecSlice] at hs
    split at hs
    · simp at hs
    · next hlen =>
      cases hs
      exact ⟨by rw [List.drop_zero], by omega⟩
  rw [elemRefs] at h
  rw [Element.items]
  split at h
  · next hf =>
    obtain ⟨idxs, hidxs, h⟩ := bind_eq_ok.mp h
    cases h
    obtain ⟨rfl, hle⟩ := hslice hidxs
    rw [if_pos hf, List.map_map, List.length_map, List.length_take]
    exact ⟨rfl, by omega⟩
  · next hf =>
    rw [if_neg hf]
    split at h
    · obtain ⟨exprs, hexprs, h⟩ := bind_eq_ok.mp h
      cases h
      obtain ⟨rfl, hle⟩ := hslice hexprs
      rw [List.map_map, List.length_map, List.length_take]
      exact ⟨rfl, by omega⟩
    · next he =>
      split at h
      · simp at h
      · next hlen =>
        cases h
        rw [not_not.mp he, not_not.mp hlen]
        exact ⟨rfl, rfl⟩

/-- The references go into the table one after the other. -/
theorem putRefs_effect {a : Addr} {t : TableInst} {items : List ElemItem} {i : ℕ} (ht : w.part (·.tables) a = some t)
    (hfits : i + items.length ≤ t.tdata.length) (h : putRefs a i (items.map (itemRef pf k)) w = (.ok (), w')) :
    ∃ vals, List.Forall₂ (ItemValue pf w k) items vals ∧ TablesOnly w w' ∧
      w'.part (·.droppedElements) = w.part (·.droppedElements) ∧
      w'.part (·.tables) = editAt (w.part (·.tables)) a ({ · with tdata := InPlaceDt.overwrite t.tdata i vals }) := by
  induction items generalizing w t i with
  | nil =>
    cases h
    refine ⟨[], .nil, .refl _, rfl, ?_⟩
    rw [InPlaceDt.overwrite_nil]
    funext b
    rw [editAt]
    split
    · next hb =>
      rw [hb, ht]
      rfl
    · rfl
  | cons item items ih =>
    rw [List.length_cons] at hfits
    obtain ⟨⟨⟩, w1, hput, hrest⟩ := Eff.bind_ok.mp h
    obtain ⟨v, w2, hreadRef, hput2⟩ := Eff.bind_ok.mp hput
    obtain ⟨hv, rfl⟩ := Eff.read_ok hreadRef
    obtain ⟨t', w3, hreadTable, hset⟩ := Eff.bind_ok.mp hput2
    obtain ⟨ht', rfl⟩ := Eff.read_ok hreadTable
    obtain rfl : t' = t := Option.some.inj ((part_tables.mp ht').symm.trans ht)
    have hi : i < t'.tdata.length := by omega
    rw [if_pos hi] at hset
    cases hset
    have honly := @tablesOnly_setTable w3 a (t'.tdata.set i v)
    have ht1 : (w3.setTable a (t'.tdata.set i v)).part (·.tables) a = some { t' with tdata := t'.tdata.set i v } := by
      rw [tables_setTable, editAt, if_pos rfl, ht]
      rfl
    have hdropped : (w3.setTable a (t'.tdata.set i v)).part (·.droppedElements) = w3.part (·.droppedElements) := by
      refine part_modifyInst ?_
      intro mi
      rfl
    obtain ⟨vals, hvals, honly', hdropped', htables⟩ := ih ht1 (by rw [List.length_set]; omega) hrest
    refine ⟨v :: vals, .cons (itemRef_ok hv) ?_, honly.trans honly', hdropped'.trans hdropped, ?_⟩
    · exact hvals.imp fun _ _ hval => hval.keep honly.shape.symm honly.globals.symm
    · rw [htables, tables_setTable, editAt_editAt, InPlaceDt.overwrite_cons v vals hi]
      rfl

/-- An active segment goes into its table. -/
theorem initElemActive_effect {elem : Element} (h : initElemActive pf k mod elem w = (.ok (), w')) :
    ∃ s, ElemPlaced pf w k elem s ∧ TablesOnly w w' ∧ w'.part (·.droppedElements) = w.part (·.droppedElements) ∧
      ∀ a, w'.part (·.tables) a = (w.part (·.tables) a).map fun t => { t with tdata := s.put a t.tdata } := by
  obtain ⟨mi, w1, hreadInst, h1⟩ := Eff.bind_ok.mp h
  obtain ⟨-, rfl⟩ := Eff.read_ok hreadInst
  split at h1
  · cases h1
  · obtain ⟨a, w2, hreadAddr, h2⟩ := Eff.bind_ok.mp h1
    obtain ⟨ha, rfl⟩ := Eff.read_ok hreadAddr
    split at h2
    · cases h2
    · obtain ⟨offset, w3, hreadOffset, h3⟩ := Eff.bind_ok.mp h2
      obtain ⟨hoffset, rfl⟩ := Eff.read_ok hreadOffset
      obtain ⟨t, w4, hreadTable, h4⟩ := Eff.bind_ok.mp h3
      obtain ⟨ht, rfl⟩ := Eff.read_ok hreadTable
      split at h4
      · cases h4
      · next hfits =>
        obtain ⟨refs, w5, hlift, h5⟩ := Eff.bind_ok.mp h4
        obtain ⟨hrefs, rfl⟩ := Eff.lift_ok hlift
        obtain ⟨rfl, hlen⟩ := elemRefs_ok hrefs
        have ht' := part_tables.mp ht
        obtain ⟨vals, hvals, honly, hdropped, htables⟩ := putRefs_effect ht' (by omega) h5
        have hcount : vals.length = elem.dataLen := hvals.length_eq.symm.trans hlen
        refine ⟨⟨a, offset, vals⟩, ⟨ha, ?_, hvals, t, ht', by simp only; omega⟩, honly, hdropped, fun b => ?_⟩
        · split at hoffset
          · next hnil =>
            cases hoffset
            exact .inl ⟨hnil, rfl⟩
          · exact .inr (offsetOf_ok hoffset)
        · rw [htables, editAt]
          split
          · next hb =>
            subst hb
            simp [ht', Placed.put]
          · next hb => simp [Placed.put, Ne.symm hb]

/-- Segments that fit leave the lengths as they are. -/
theorem overwritten_length {α : Type} {segs : List (Placed α)} {a : Addr} {data : List α}
    (h : ∀ s ∈ segs, s.addr = a → s.offset + s.items.length ≤ data.length) :
    (overwritten segs a data).length = data.length := by
  induction segs generalizing data with
  | nil => rfl
  | cons s segs ih =>
    have hput : (s.put a data).length = data.length := by
      rw [Placed.put]
      split
      · next ha => exact InPlaceDt.overwrite_length (h s List.mem_cons_self ha)
      · rfl
    rw [overwritten, List.foldl_cons]
    rw [← hput]
    refine ih fun s' hs' ha => ?_
    rw [hput]
    exact h s' (List.mem_cons_of_mem _ hs') ha

theorem mem_of_forall₂ {α β : Type} {R : α → β → Prop} {xs : List α} {ys : List β} (h : List.Forall₂ R xs ys) {y : β}
    (hy : y ∈ ys) : ∃ x ∈ xs, R x y := by
  induction h with
  | nil => cases hy
  | cons hxy _ ih =>
    obtain rfl | hy := List.mem_cons.mp hy
    · exact ⟨_, List.mem_cons_self, hxy⟩
    · obtain ⟨x, hx, hR⟩ := ih hy
      exact ⟨x, List.mem_cons_of_mem _ hx, hR⟩

theorem elems_lengths {elems : List Element} {segs : List (Placed ValueU)}
    (h : List.Forall₂ (ElemPlaced pf w k) elems segs)
    (htables : ∀ a, w'.part (·.tables) a = (w.part (·.tables) a).map fun t =>
      { t with tdata := overwritten segs a t.tdata }) (a : Addr) (t : TableInst) (ht : w.part (·.tables) a = some t) :
    ∃ t', w'.part (·.tables) a = some t' ∧ t'.tdata.length = t.tdata.length := by
  refine ⟨_, by rw [htables, ht]; rfl, overwritten_length fun s hs ha => ?_⟩
  obtain ⟨elem, -, hplaced⟩ := mem_of_forall₂ h hs
  obtain ⟨t0, ht0, hfits⟩ := hplaced.fits
  rw [ha] at ht0
  obtain rfl : t0 = t := Option.some.inj (ht0.symm.trans ht)
  exact hfits

theorem dropElem_effect (i : ℕ) (h : dropElem k i w = (.ok (), w')) :
    TablesOnly w w' ∧ w'.part (·.tables) = w.part (·.tables) ∧
      w'.part (·.droppedElements) = editAt (w.part (·.droppedElements)) ⟨k, i⟩ fun _ => true := by
  cases h
  refine ⟨⟨⟨Vm.shape_modifyInst ?_ k w, Vm.states_modifyInst ?_ k w⟩, part_modifyInst ?_, part_modifyInst ?_,
    part_modifyInst ?_⟩, part_modifyInst ?_, part_modifyInst_edit fun mi => List.set_eq_modify ..⟩ <;> intro mi <;> rfl

/-- One round of the loop over the elements. -/
theorem initElem_effect {x : ℕ × Element} (h : initElem pf k mod x w = (.ok (), w')) :
    ∃ segs, List.Forall₂ (ElemPlaced pf w k) ([x.2].filter fun elem => elem.mode = .active) segs ∧ TablesOnly w w' ∧
      (∀ a, w'.part (·.tables) a = (w.part (·.tables) a).map fun t => { t with tdata := overwritten segs a t.tdata }) ∧
      w'.part (·.droppedElements) =
        if x.2.mode ≠ .passive then editAt (w.part (·.droppedElements)) ⟨k, x.1⟩ fun _ => true
        else w.part (·.droppedElements) := by
  have hdrop : ∀ {w1}, (if x.2.mode ≠ .passive then dropElem k x.1 else pure ()) w1 = (.ok (), w') →
      TablesOnly w1 w' ∧ w'.part (·.tables) = w1.part (·.tables) ∧
      w'.part (·.droppedElements) =
        if x.2.mode ≠ .passive then editAt (w1.part (·.droppedElements)) ⟨k, x.1⟩ fun _ => true
        else w1.part (·.droppedElements) := by
    intro w1 h1
    split at h1
    · next hp =>
      rw [if_pos hp]
      exact dropElem_effect x.1 h1
    · next hp =>
      cases h1
      rw [if_neg hp]
      exact ⟨.refl _, rfl, rfl⟩
  rw [initElem] at h
  split at h
  · next hactive =>
    obtain ⟨⟨⟩, w1, hinit, hrest⟩ := Eff.bind_ok.mp h
    obtain ⟨s, hs, honly, hdropped, htables⟩ := initElemActive_effect hinit
    obtain ⟨honly', htables', hdropped'⟩ := hdrop hrest
    refine ⟨[s], ?_, honly.trans honly', ?_, ?_⟩
    · simpa [hactive] using hs
    · intro a
      rw [htables', htables]
      rfl
    · rw [hdropped', hdropped]
  · next hactive =>
    obtain ⟨honly', htables', hdropped'⟩ := hdrop h
    refine ⟨[], ?_, honly', fun a => ?_, hdropped'⟩
    · simp [hactive]
    · rw [htables']
      simp [overwritten]

/-- A flag that a round sets, or that a later one sets. -/
theorem flag_cons {α : Type} {m : Addr → Option Bool} {k : ℕ} {x : ℕ × α} {xs : List (ℕ × α)} {p : α → Prop}
    [DecidablePred p] [∀ a : Addr, Decidable (a.inst = k ∧ ∃ y ∈ xs, y.1 = a.idx ∧ p y.2)]
    [∀ a : Addr, Decidable (a.inst = k ∧ ∃ y ∈ x :: xs, y.1 = a.idx ∧ p y.2)] (a : Addr) :
    (if a.inst = k ∧ ∃ y ∈ xs, y.1 = a.idx ∧ p y.2 then
      ((if p x.2 then editAt m ⟨k, x.1⟩ fun _ => true else m) a).map fun _ => true
    else (if p x.2 then editAt m ⟨k, x.1⟩ fun _ => true else m) a) =
      if a.inst = k ∧ ∃ y ∈ x :: xs, y.1 = a.idx ∧ p y.2 then (m a).map fun _ => true else m a := by
  have hfirst : (if p x.2 then editAt m ⟨k, x.1⟩ fun _ => true else m) a =
      if a.inst = k ∧ x.1 = a.idx ∧ p x.2 then (m a).map fun _ => true else m a := by
    obtain ⟨j, l⟩ := a
    by_cases hp : p x.2
    · simp [editAt, hp, eq_comm]
    · simp [hp]
  rw [hfirst]
  simp only [List.mem_cons, exists_eq_or_imp]
  by_cases hk : a.inst = k
  · by_cases hrest : ∃ y ∈ xs, y.1 = a.idx ∧ p y.2
    · simp only [hk, hrest, true_and, or_true, if_true]
      split <;> simp
    · simp only [hk, hrest, true_and, or_false, if_false]
  · simp only [hk, false_and, if_false]

open Classical in
/-- The loop over the elements. -/
theorem initElems_effect {xs : List (ℕ × Element)} (h : Eff.each (initElem pf k mod) xs w = (.ok (), w')) :
    ∃ segs, List.Forall₂ (ElemPlaced pf w k) ((xs.map Prod.snd).filter fun elem => elem.mode = .active) segs ∧
      TablesOnly w w' ∧
      (∀ a, w'.part (·.tables) a = (w.part (·.tables) a).map fun t => { t with tdata := overwritten segs a t.tdata }) ∧
      ∀ a : Addr, w'.part (·.droppedElements) a =
        if a.inst = k ∧ ∃ x ∈ xs, x.1 = a.idx ∧ x.2.mode ≠ .passive then
          (w.part (·.droppedElements) a).map fun _ => true
        else w.part (·.droppedElements) a := by
  induction xs generalizing w with
  | nil =>
    cases h
    exact ⟨[], .nil, .refl _, by simp [overwritten], by simp⟩
  | cons x xs ih =>
    obtain ⟨⟨⟩, w1, hx, hrest⟩ := Eff.bind_ok.mp h
    obtain ⟨segs, hsegs, honly, htables, hdropped⟩ := initElem_effect hx
    obtain ⟨segs', hsegs', honly', htables', hdropped'⟩ := ih hrest
    have hback : ∀ a t, w1.part (·.tables) a = some t →
        ∃ t', w.part (·.tables) a = some t' ∧ t'.tdata.length = t.tdata.length := by
      intro a t ht
      rw [htables] at ht
      obtain ⟨t0, ht0, rfl⟩ := Option.map_eq_some_iff.mp ht
      obtain ⟨t1, ht1, hlen⟩ := elems_lengths hsegs htables a t0 ht0
      rw [htables, ht0] at ht1
      cases ht1
      exact ⟨t0, ht0, hlen.symm⟩
    refine ⟨segs ++ segs', ?_, honly.trans honly', fun a => ?_, fun a => ?_⟩
    · rw [List.map_cons, ← List.singleton_append, List.filter_append]
      refine List.rel_append hsegs (hsegs'.imp fun elem s hs => ?_)
      exact hs.keep honly.shape.symm honly.globals.symm hback
    · rw [htables', htables, Option.map_map]
      congr 1
      funext t
      simp [overwritten]
    · rw [hdropped', hdropped]
      exact flag_cons (p := fun elem : Element => elem.mode ≠ .passive) a

end Elements

/-! ### Data -/

section Data
variable {pf : Platform} {k : ℕ} {w w' : Vm}

/-- One round of the loop over the data segments. -/
theorem initData_effect {x : ℕ × Data} (h : initData pf k x w = (.ok (), w')) :
    ∃ segs, List.Forall₂ (DataPlaced pf w k) ([x.2].filter fun d => d.isActive) segs ∧ MemoriesOnly w w' ∧
      (∀ a, w'.part (·.memories) a =
        (w.part (·.memories) a).map fun m => { m with mdata := overwritten segs a m.mdata }) ∧
      w'.part (·.droppedData) =
        if x.2.isActive = true then editAt (w.part (·.droppedData)) ⟨k, x.1⟩ fun _ => true
        else w.part (·.droppedData) := by
  rw [initData] at h
  split at h
  · next hactive =>
    cases h
    rw [Bool.not_eq_true'] at hactive
    refine ⟨[], by simp [hactive], .refl _, fun a => by simp [overwritten], ?_⟩
    rw [if_neg (by simp [hactive])]
  · next hactive =>
    replace hactive : x.2.isActive = true := by simpa using hactive
    rw [initDataActive] at h
    obtain ⟨mi, w1, hreadInst, h1⟩ := Eff.bind_ok.mp h
    obtain ⟨-, rfl⟩ := Eff.read_ok hreadInst
    split at h1
    · cases h1
    · obtain ⟨a, w2, hreadAddr, h2⟩ := Eff.bind_ok.mp h1
      obtain ⟨ha, rfl⟩ := Eff.read_ok hreadAddr
      obtain ⟨offset, w3, hreadOffset, h3⟩ := Eff.bind_ok.mp h2
      obtain ⟨hoffset, rfl⟩ := Eff.read_ok hreadOffset
      obtain ⟨m, w4, hreadMemory, h4⟩ := Eff.bind_ok.mp h3
      obtain ⟨hm, rfl⟩ := Eff.read_ok hreadMemory
      split at h4
      · cases h4
      · next hfits =>
        obtain ⟨⟨⟩, w5, hset, hdrop⟩ := Eff.bind_ok.mp h4
        cases hset
        cases hdrop
        have hm' := part_memories.mp hm
        refine ⟨[⟨a, offset, x.2.bytes⟩], ?_, ?_, fun b => ?_, ?_⟩
        · simpa [hactive] using ⟨ha, offsetOf_ok hoffset, rfl, m, hm', Nat.not_lt.mp hfits⟩
        · refine (memoriesOnly_setMemory a _).trans ⟨⟨Vm.shape_modifyInst ?_ k _, Vm.states_modifyInst ?_ k _⟩,
            part_modifyInst ?_, part_modifyInst ?_, part_modifyInst ?_⟩ <;> intro mi <;> rfl
        · rw [part_modifyInst (by intro mi; rfl), memories_setMemory, editAt]
          split
          · next hb =>
            subst hb
            simp [hm', overwritten, Placed.put]
          · next hb => simp [overwritten, Placed.put, Ne.symm hb]
        · rw [if_pos hactive, part_modifyInst_edit fun mi => List.set_eq_modify ..]
          congr 1
          refine part_modifyInst ?_
          intro mi
          rfl

theorem data_lengths {ds : List Data} {segs : List (Placed UInt8)} (h : List.Forall₂ (DataPlaced pf w k) ds segs)
    (hmemories : ∀ a, w'.part (·.memories) a = (w.part (·.memories) a).map fun m =>
      { m with mdata := overwritten segs a m.mdata }) (a : Addr) (m : MemoryInst)
      (hm : w.part (·.memories) a = some m) :
    ∃ m', w'.part (·.memories) a = some m' ∧ m'.mdata.length = m.mdata.length := by
  refine ⟨_, by rw [hmemories, hm]; rfl, overwritten_length fun s hs ha => ?_⟩
  obtain ⟨d, -, hplaced⟩ := mem_of_forall₂ h hs
  obtain ⟨m0, hm0, hfits⟩ := hplaced.fits
  rw [ha] at hm0
  obtain rfl : m0 = m := Option.some.inj (hm0.symm.trans hm)
  exact hfits

open Classical in
/-- The loop over the data segments. -/
theorem initDatas_effect {xs : List (ℕ × Data)} (h : Eff.each (initData pf k) xs w = (.ok (), w')) :
    ∃ segs, List.Forall₂ (DataPlaced pf w k) ((xs.map Prod.snd).filter fun d => d.isActive) segs ∧
      MemoriesOnly w w' ∧
      (∀ a, w'.part (·.memories) a =
        (w.part (·.memories) a).map fun m => { m with mdata := overwritten segs a m.mdata }) ∧
      ∀ a : Addr, w'.part (·.droppedData) a =
        if a.inst = k ∧ ∃ x ∈ xs, x.1 = a.idx ∧ x.2.isActive = true then (w.part (·.droppedData) a).map fun _ => true
        else w.part (·.droppedData) a := by
  induction xs generalizing w with
  | nil =>
    cases h
    exact ⟨[], .nil, .refl _, by simp [overwritten], by simp⟩
  | cons x xs ih =>
    obtain ⟨⟨⟩, w1, hx, hrest⟩ := Eff.bind_ok.mp h
    obtain ⟨segs, hsegs, honly, hmemories, hdropped⟩ := initData_effect hx
    obtain ⟨segs', hsegs', honly', hmemories', hdropped'⟩ := ih hrest
    have hback : ∀ a m, w1.part (·.memories) a = some m →
        ∃ m', w.part (·.memories) a = some m' ∧ m'.mdata.length = m.mdata.length := by
      intro a m hm
      rw [hmemories] at hm
      obtain ⟨m0, hm0, rfl⟩ := Option.map_eq_some_iff.mp hm
      obtain ⟨m1, hm1, hlen⟩ := data_lengths hsegs hmemories a m0 hm0
      rw [hmemories, hm0] at hm1
      cases hm1
      exact ⟨m0, hm0, hlen.symm⟩
    refine ⟨segs ++ segs', ?_, honly.trans honly', fun a => ?_, fun a => ?_⟩
    · rw [List.map_cons, ← List.singleton_append, List.filter_append]
      refine List.rel_append hsegs (hsegs'.imp fun d s hs => ?_)
      exact hs.keep honly.shape.symm honly.globals.symm hback
    · rw [hmemories', hmemories, Option.map_map]
      congr 1
      funext m
      simp [overwritten]
    · rw [hdropped', hdropped]
      exact flag_cons (p := fun d : Data => d.isActive = true) a

end Data

end Silverfir

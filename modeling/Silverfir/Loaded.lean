import Silverfir.Indices
import Silverfir.Parsed

/-! The modules a host can have: parsed from a binary, given more names, and bound to host
functions. -/
namespace Silverfir

open ListStack (map_modify)

/-- A module as the host holds it before it is validated. -/
inductive Loaded : Module → Prop
  | init {bin name mod} (h : moduleInit bin name = .ok mod) : Loaded mod
  | name {mod} (name : Str) (h : Loaded mod) : Loaded (moduleRegisterName mod name)
  | host {mod mod'} {info : Str → Option ℕ} (h : Loaded mod)
    (hi : injectHostFunctions info mod = .ok mod') : Loaded mod'

/-- A function without its binding. -/
def Func.unbound (f : Func) : Func := { f with hostFunc := none }

/-- The modules differ in the bindings of their functions alone. -/
def Module.Rebound (mod mod' : Module) : Prop :=
  ∃ funcs, mod' = { mod with funcs := funcs } ∧ funcs.map Func.unbound = mod.funcs.map Func.unbound

theorem map_unbound {β : Type} {g : Func → β} (hg : ∀ f, g f.unbound = g f) {funcs funcs' : List Func}
    (h : funcs'.map Func.unbound = funcs.map Func.unbound) : funcs'.map g = funcs.map g := by
  have hcomp := congrArg (List.map g) h
  simpa only [List.map_map, Function.comp_def, hg] using hcomp

theorem injectHostFunction_rebound {info : Str → Option ℕ} {mod mod' : Module} {exp : Export}
    (h : injectHostFunction info mod exp = .ok mod') : mod.Rebound mod' := by
  rw [injectHostFunction] at h
  split at h
  · split at h
    · simp at h
    · next f hf =>
      obtain ⟨-, h⟩ := guard_eq_ok.mp h
      split at h
      · simp at h
      · cases h
        refine ⟨_, rfl, map_set_eq hf ?_⟩
        rfl
  · cases h
    exact ⟨mod.funcs, rfl, rfl⟩

/-- `inject_host_functions` binds functions and changes nothing else. -/
theorem injectHostFunctions_rebound {info : Str → Option ℕ} {mod mod' : Module}
    (h : injectHostFunctions info mod = .ok mod') : mod.Rebound mod' := by
  rw [injectHostFunctions] at h
  have key : ∀ (exps : List Export) (m : Module), exps.foldlM (injectHostFunction info) m = .ok mod' →
    m.Rebound mod' := by
    intro exps
    induction exps with
    | nil =>
      intro m hm
      cases hm
      exact ⟨mod'.funcs, rfl, rfl⟩
    | cons exp exps ih =>
      intro m hm
      rw [List.foldlM_cons] at hm
      obtain ⟨m1, hm1, hm⟩ := bind_eq_ok.mp hm
      obtain ⟨funcs1, rfl, heq1⟩ := injectHostFunction_rebound hm1
      obtain ⟨funcs, rfl, heq⟩ := ih _ hm
      exact ⟨funcs, rfl, heq.trans heq1⟩
  exact key _ _ h

/-- What holds of parsed modules, whatever their names and bindings. -/
theorem Loaded.induction {P : Module → Prop} (hparse : ∀ bin mod, parseModule bin = .ok mod → P mod)
    (hnames : ∀ mod names, P mod → P { mod with names := names })
    (hrebound : ∀ mod mod', mod.Rebound mod' → P mod → P mod') {mod : Module} (h : Loaded mod) : P mod := by
  induction h with
  | init h =>
    simp only [moduleInit, bind_eq_ok] at h
    obtain ⟨m, hm, h⟩ := h
    cases h
    exact hnames m _ (hparse _ m hm)
  | name name _ ih => exact hnames _ _ ih
  | host _ hi ih => exact hrebound _ _ (injectHostFunctions_rebound hi) ih

/-- The limits of the memories and tables are those of `parse_limits`. -/
structure Module.Limited (mod : Module) : Prop where
  memories : ∀ m ∈ mod.memories, m.lim.Ok wasmMemMaxPages
  tables : ∀ t ∈ mod.tables, t.lim.Ok u32Max

theorem forall_of_map_eq {α β : Type} {g : α → β} {Q : β → Prop} {xs xs' : List α} (h : xs'.map g = xs.map g)
    (hxs : ∀ x ∈ xs, Q (g x)) : ∀ x ∈ xs', Q (g x) := by
  intro x hx
  have hmem : g x ∈ xs.map g := h ▸ List.mem_map_of_mem hx
  obtain ⟨y, hy, hgy⟩ := List.mem_map.mp hmem
  rw [← hgy]
  exact hxs y hy

theorem markExport_limited {kind : ExternalKind} {idx : ℕ} {mod mod' : Module} (h : markExport kind idx mod = .ok mod')
    (hlim : mod.Limited) : mod'.Limited := by
  cases kind with
  | func | global =>
    obtain ⟨-, h⟩ := guard_eq_ok.mp h
    cases h
    exact ⟨hlim.memories, hlim.tables⟩
  | table =>
    obtain ⟨-, h⟩ := guard_eq_ok.mp h
    cases h
    refine ⟨hlim.memories, forall_of_map_eq (g := Table.lim) (map_modify (fun _ => ?_) _ _) hlim.tables⟩
    rfl
  | memory =>
    obtain ⟨-, h⟩ := guard_eq_ok.mp h
    cases h
    refine ⟨forall_of_map_eq (g := Memory.lim) (map_modify (fun _ => ?_) _ _) hlim.memories, hlim.tables⟩
    rfl

theorem parseModule_limited {bin : Str} {mod : Module} (h : parseModule bin = .ok mod) : mod.Limited := by
  refine parseModule_induction (P := Module.Limited) ⟨by simp, by simp⟩ (fun mod mod' hrec hlim => ?_) h
  have hpush : ∀ {α : Type} {xs : List α} {x : α} {Q : α → Prop}, (∀ y ∈ xs, Q y) → Q x → ∀ y ∈ xs ++ [x], Q y := by
    intro α xs x Q hxs hx y hy
    obtain hy | hy := List.mem_append.mp hy
    · exact hxs y hy
    · rw [List.mem_singleton.mp hy]
      exact hx
  cases hrec with
  | importTable _ hl => exact ⟨hlim.memories, hpush hlim.tables hl⟩
  | importMemory hl => exact ⟨hpush hlim.memories hl, hlim.tables⟩
  | table _ hl => exact ⟨hlim.memories, hpush hlim.tables hl⟩
  | memory hl => exact ⟨hpush hlim.memories hl, hlim.tables⟩
  | export_ hmark =>
    have := markExport_limited hmark hlim
    exact ⟨this.memories, this.tables⟩
  | _ => exact ⟨hlim.memories, hlim.tables⟩

theorem Loaded.limited {mod : Module} (h : Loaded mod) : mod.Limited := by
  refine h.induction (P := Module.Limited) (fun _ _ hp => parseModule_limited hp)
    (fun _ _ hm => ⟨hm.memories, hm.tables⟩) ?_
  rintro m m' ⟨funcs, rfl, -⟩ hm
  exact ⟨hm.memories, hm.tables⟩

theorem Loaded.indexed {mod : Module} (h : Loaded mod) : mod.Indexed := by
  refine h.induction (P := Module.Indexed) (fun _ _ hp => ?_) (fun _ _ hm => { hm with }) ?_
  · obtain ⟨current, hs⟩ := parseModule_sound hp
    exact hs.indexed
  · rintro m m' ⟨funcs, rfl, heq⟩ hm
    have hmap : ∀ {β : Type} (g : Func → β), (∀ f, g f.unbound = g f) → funcs.map g = m.funcs.map g :=
      fun g hg => map_unbound hg heq
    have himp : ∀ kind, (({ m with funcs := funcs } : Module).linkages kind).map (·.imported) =
        (m.linkages kind).map (·.imported) := by
      intro kind
      cases kind with
      | func =>
        simp only [Module.linkages, List.map_map]
        exact hmap _ fun _ => rfl
      | table | memory | global => rfl
    have hrevised : ({ m with funcs := funcs } : Module).Indexed ∧ _ :=
      hm.revise rfl rfl rfl rfl (hmap _ fun _ => rfl) himp rfl
    exact hrevised.1

theorem parseModule_fresh {bin : Str} {mod : Module} (h : parseModule bin = .ok mod) : mod.Fresh := by
  refine parseModule_induction (P := Module.Fresh) (by simp [Module.Fresh]) (fun mod mod' hrec hfresh => ?_) h
  have hpush : ∀ {fn : Func}, fn.jt = [] → ∀ f ∈ mod.funcs ++ [fn], f.jt = [] := by
    intro fn hfn f hf
    obtain hf | hf := List.mem_append.mp hf
    · exact hfresh f hf
    · rw [List.mem_singleton.mp hf]
      exact hfn
  cases hrec with
  | importFunc _ => exact hpush rfl
  | func _ => exact hpush rfl
  | code _ hfn _ =>
    intro f hf
    obtain hf | rfl := List.mem_or_eq_of_mem_set hf
    · exact hfresh f hf
    · have hjt := hfresh _ (List.mem_of_getElem? hfn)
      exact hjt
  | @export_ mod1 kind _ _ hmark =>
    cases kind with
    | func =>
      obtain ⟨-, hmark⟩ := guard_eq_ok.mp hmark
      cases hmark
      refine forall_of_map_eq (g := Func.jt) (Q := fun jt => jt = []) (map_modify (fun _ => ?_) _ _) hfresh
      rfl
    | table | memory | global =>
      obtain ⟨-, hmark⟩ := guard_eq_ok.mp hmark
      cases hmark
      exact hfresh
  | _ => exact hfresh

theorem Loaded.fresh {mod : Module} (h : Loaded mod) : mod.Fresh := by
  refine h.induction (P := Module.Fresh) (fun _ _ hp => parseModule_fresh hp) (fun _ _ hm => hm) ?_
  rintro m m' ⟨funcs, rfl, heq⟩ hm
  exact forall_of_map_eq (g := Func.jt) (Q := fun jt => jt = []) (map_unbound (fun _ => rfl) heq) hm

/-! ### Bodies -/

/-- Which functions are imported. -/
def Module.importFlags (mod : Module) : List Bool := mod.funcs.map (·.linkage.imported)

/-- A function with a body comes after one that is not imported, or is not imported itself. -/
structure Module.Bodied (mod : Module) : Prop where
  count : mod.importFlags.count true = mod.importedFuncCount
  defined : ∀ (i : ℕ) (fn : Func), mod.funcs[i]? = some fn → fn.code ≠ [] → ∃ j ≤ i, mod.importFlags[j]? = some false

/-- Among more entries than there are imports one is not imported. -/
theorem exists_defined {flags : List Bool} {i : ℕ} (hi : i < flags.length) (hcount : flags.count true ≤ i) :
    ∃ j ≤ i, flags[j]? = some false := by
  by_contra hne
  have hall : ∀ b ∈ flags.take (i + 1), b = true := by
    intro b hb
    obtain ⟨j, hj, rfl⟩ := List.getElem_of_mem hb
    rw [List.length_take] at hj
    rw [List.getElem_take]
    by_contra hfalse
    refine hne ⟨j, by omega, ?_⟩
    rw [List.getElem?_eq_getElem (by omega)]
    simpa using hfalse
  have htake : (flags.take (i + 1)).count true = i + 1 := by
    rw [List.count_eq_length.mpr fun b hb => (hall b hb).symm, List.length_take]
    omega
  have hle := (List.take_sublist (i + 1) flags).count_le true
  omega

/-- The functions keep their flags, and their bodies but for one that is not an import. -/
theorem Module.Bodied.congr {mod mod' : Module} (h : mod.Bodied) (hflags : mod'.importFlags = mod.importFlags)
    (hcount : mod'.importedFuncCount = mod.importedFuncCount)
    (hcode : ∀ (i : ℕ) (fn' : Func), mod'.funcs[i]? = some fn' → fn'.code ≠ [] →
      mod.importedFuncCount ≤ i ∨ ∃ fn, mod.funcs[i]? = some fn ∧ fn.code = fn'.code) : mod'.Bodied where
  count := by rw [hflags, hcount, h.count]
  defined := by
    intro i fn' hfn' hne
    rw [hflags]
    obtain hi | ⟨fn, hfn, heq⟩ := hcode i fn' hfn' hne
    · refine exists_defined ?_ (h.count.trans_le hi)
      rw [← hflags, Module.importFlags, List.length_map]
      exact (List.getElem?_eq_some_iff.mp hfn').1
    · exact h.defined i fn hfn (heq ▸ hne)

theorem Module.Bodied.push {mod : Module} (h : mod.Bodied) {fn : Func} (hcode : fn.code = []) {n : ℕ}
    (hn : n = mod.importedFuncCount + if fn.linkage.imported then 1 else 0) :
    { mod with funcs := mod.funcs ++ [fn], importedFuncCount := n }.Bodied where
  count := by
    rw [hn, ← h.count]
    simp only [Module.importFlags, List.map_append, List.map_cons, List.map_nil, List.count_append]
    cases fn.linkage.imported <;> rfl
  defined := by
    intro i fn' hfn' hne
    rw [List.getElem?_append] at hfn'
    split at hfn'
    · next hi =>
      obtain ⟨j, hj, hflag⟩ := h.defined i fn' hfn' hne
      refine ⟨j, hj, ?_⟩
      rw [Module.importFlags, List.map_append, List.getElem?_append_left (by rw [List.length_map]; omega)]
      exact hflag
    · obtain rfl := List.mem_singleton.mp (List.mem_of_getElem? hfn')
      exact absurd hcode hne

theorem parseModule_bodied {bin : Str} {mod : Module} (h : parseModule bin = .ok mod) : mod.Bodied := by
  refine parseModule_induction (P := Module.Bodied) ⟨rfl, by simp⟩ (fun mod mod' hrec hb => ?_) h
  cases hrec with
  | importFunc _ => exact hb.push rfl rfl
  | func _ => exact hb.push rfl rfl
  | @code i fn _ _ _ hi hfn _ =>
    refine hb.congr (map_set_eq hfn rfl) rfl fun j fn' hfn' hne => ?_
    rw [List.getElem?_set] at hfn'
    split at hfn'
    · next hij => exact .inl (hij ▸ hi)
    · exact .inr ⟨fn', hfn', rfl⟩
  | @export_ mod1 kind idx _ hmark =>
    have hsame : mod1.Bodied := by
      cases kind with
      | func =>
        obtain ⟨-, hmark⟩ := guard_eq_ok.mp hmark
        cases hmark
        refine hb.congr (map_modify (fun _ => ?_) _ _) rfl fun j fn' hfn' _ => .inr ?_
        · rfl
        · rw [List.getElem?_modify] at hfn'
          obtain ⟨fn, hfn, rfl⟩ := Option.map_eq_some_iff.mp hfn'
          refine ⟨fn, hfn, ?_⟩
          split <;> rfl
      | table | memory | global =>
        obtain ⟨-, hmark⟩ := guard_eq_ok.mp hmark
        cases hmark
        exact ⟨hb.count, hb.defined⟩
    exact ⟨hsame.count, hsame.defined⟩
  | _ => exact ⟨hb.count, hb.defined⟩

/-- Imported functions have no body. -/
theorem Loaded.imported_code {mod : Module} (h : Loaded mod) :
    ∀ fn ∈ mod.funcs, fn.linkage.imported = true → fn.code = [] := by
  have hpair : ∀ x ∈ mod.funcs.map fun fn : Func => (fn.linkage.imported, fn.code), x.1 = true → x.2 = [] := by
    refine h.induction (P := fun m =>
      ∀ x ∈ m.funcs.map fun fn : Func => (fn.linkage.imported, fn.code), x.1 = true → x.2 = [])
      (fun bin m hp => ?_) (fun _ _ hm => hm) ?_
    · intro x hx himp
      obtain ⟨fn, hfn, rfl⟩ := List.mem_map.mp hx
      by_contra hne
      obtain ⟨current, hs⟩ := parseModule_sound hp
      have hfirst := hs.indexed.imported .func
      obtain ⟨i, hi⟩ := List.mem_iff_getElem?.mp hfn
      obtain ⟨j, hj, hflag⟩ := (parseModule_bodied hp).defined i fn hi hne
      have hlt := (hfirst.imported_iff (l := fn.linkage) (i := i)
        (by rw [Module.linkages, List.getElem?_map, hi, Option.map_some])).mp himp
      obtain ⟨fn', hfn', hno⟩ := Option.map_eq_some_iff.mp ((List.getElem?_map ..).symm.trans hflag)
      have htrue := (hfirst.imported_iff (l := fn'.linkage) (i := j)
        (by rw [Module.linkages, List.getElem?_map, hfn', Option.map_some])).mpr (by omega)
      rw [htrue] at hno
      cases hno
    · rintro m m' ⟨funcs, rfl, heq⟩ hm
      have hmap : funcs.map (fun fn : Func => (fn.linkage.imported, fn.code)) =
          m.funcs.map fun fn : Func => (fn.linkage.imported, fn.code) := map_unbound (fun _ => rfl) heq
      rw [hmap]
      exact hm
  exact fun fn hfn => hpair _ (List.mem_map_of_mem hfn)

end Silverfir

import Silverfir.Grounded
import Silverfir.Words

/-! The limits of an imported table or memory against those of the definition it leads to. A limit
without a maximum is recorded with the cap, and a table is compared by the minimum it was declared with. -/
namespace Silverfir

open Relation (ReflTransGen)
open Grammar

namespace Binary.Limits

/-- `parse_limits` records these declared limits as `lim`. -/
def ReadAs (cap : ℕ) (l : Limits) (lim : Silverfir.Limits) : Prop :=
  ∃ w, l.Encodes w ∧ ReadsValue (parseLimits cap) lim w

/-- The maximum of a definition is within that of its import. -/
def MaxWithin (l m : Limits) : Prop := l.max = none ∨ ∃ a b, l.max = some a ∧ m.max = some b ∧ b ≤ a

/-- An import with the limits `l` matches a definition with the limits `m` that has this size now. -/
def Matches (l m : Limits) (size : ℕ) : Prop := l.min ≤ size ∧ l.MaxWithin m

/-- Only the import has a maximum, and it is the cap. -/
def CapOnly (cap : ℕ) (l m : Limits) : Prop := l.max = some cap ∧ m.max = none

end Binary.Limits

/-- What the check of the limits of an import has before it. -/
structure LimitCheck where
  cap : ℕ
  lim : Limits
  target : Limits
  size : ℕ
  typed : Bool

/-- The check for entry `i` of the module when its target is at the address. -/
inductive ChecksLimits (mod : Module) (vm : Vm) (i : ℕ) (a : Addr) : ExternalKind → LimitCheck → Prop
  | table {d t} (hd : mod.tables[i]? = some d) (ht : vm.table a = .ok t) : ChecksLimits mod vm i a .table {
      cap := u32Max
      lim := d.lim
      target := t.tab.lim
      size := t.tdata.length
      typed := d.valtype = t.tab.valtype }
  | memory {d t} (hd : mod.memories[i]? = some d) (ht : vm.memory a = .ok t) : ChecksLimits mod vm i a .memory {
      cap := wasmMemMaxPages
      lim := d.lim
      target := t.mem.lim
      size := t.mdata.length / wasmPageSize
      typed := true }

/-- What a minimum is compared with: the size of a memory, and the declared minimum of a table. -/
def comparedSize (kind : ExternalKind) (m : Binary.Limits) (size : ℕ) : ℕ := if kind = .table then m.min else size

/-- The inputs on which the check errs: the import alone has a maximum, which is the cap, and everything
else is right; or a table has grown to the minimum that the import asks for. -/
def Misjudged (kind : ExternalKind) (cap : ℕ) (l m : Binary.Limits) (size : ℕ) : Prop :=
  l.CapOnly cap m ∧ l.min ≤ comparedSize kind m size ∨
    kind = .table ∧ m.min < l.min ∧ l.min ≤ size ∧ l.MaxWithin m

/-! ### Declared limits -/

section Declared
variable {cap : ℕ} {l m : Binary.Limits}

/-- The limits that are read from an encoding are those that it encodes. -/
theorem parseLimits_declared {w rest : Str} {st st' : Stream} {lim : Limits} (hw : l.Encodes w)
    (hleft : Cursor.left st = w ++ rest) (h : parseLimits cap st = .ok (lim, st')) : lim = l.recorded cap := by
  simp only [parseLimits, bind_eq_ok, guard_eq_ok] at h
  obtain ⟨⟨flag, st1⟩, hflag, -, ⟨min, st2⟩, hmin, ⟨max, st3⟩, hmax, -, h⟩ := h
  cases h
  cases hw with
  | @open_ min' v hmin' =>
    rw [List.append_assoc] at hleft
    rw [readU8_reads 0x00 _ _ hleft] at hflag
    cases hflag
    rw [readVu32_reads hmin' _ _ (left_behind hleft)] at hmin
    cases hmin
    change parseMax cap 0x0 _ = _ at hmax
    rw [parseMax, if_neg (by decide)] at hmax
    cases hmax
    rfl
  | @closed min' max' v w hmin' hmax' =>
    rw [List.append_assoc, List.append_assoc] at hleft
    rw [readU8_reads 0x01 _ _ hleft] at hflag
    cases hflag
    have hnext := left_behind hleft
    rw [readVu32_reads hmin' _ _ hnext] at hmin
    cases hmin
    change parseMax cap 0x1 _ = _ at hmax
    rw [parseMax, if_pos rfl, readVu32_reads hmax' _ _ (left_behind hnext), ok_bind] at hmax
    dsimp only at hmax
    by_cases hcap : max' ≤ cap
    · rw [if_pos hcap] at hmax
      cases hmax
      rfl
    · rw [if_neg hcap] at hmax
      cases hmax

theorem Binary.Limits.ReadAs.recorded {lim : Silverfir.Limits} (h : l.ReadAs cap lim) : lim = l.recorded cap := by
  obtain ⟨w, hw, hreads⟩ := h
  have hleft : Cursor.left (Stream.from_ w) = w ++ [] := by rw [left_from_, List.append_nil]
  exact parseLimits_declared hw hleft (hreads _ [] hleft)

theorem Binary.Limits.ReadAs.max_le {lim : Silverfir.Limits} (h : l.ReadAs cap lim) : l.max.getD cap ≤ cap := by
  have heq := h.recorded
  obtain ⟨w, hw, hreads⟩ := h
  have hleft : Cursor.left (Stream.from_ w) = w ++ [] := by rw [left_from_, List.append_nil]
  have hok := (parseLimits_ok (hreads _ [] hleft)).max_le
  rw [heq] at hok
  exact hok

/-- The maxima as they are recorded are in order also if only the import has one, and it is the cap. -/
theorem recorded_max_le (hl : l.max.getD cap ≤ cap) (hm : m.max.getD cap ≤ cap) :
    (m.recorded cap).max ≤ (l.recorded cap).max ↔ l.MaxWithin m ∨ l.CapOnly cap m := by
  unfold Binary.Limits.recorded Binary.Limits.MaxWithin Binary.Limits.CapOnly
  cases hlmax : l.max with
  | none =>
    simp only [Option.getD_none]
    exact ⟨fun _ => Or.inl (Or.inl trivial), fun _ => hm⟩
  | some a =>
    rw [hlmax, Option.getD_some] at hl
    cases hmmax : m.max with
    | none =>
      simp only [Option.getD_none, Option.getD_some, Option.some.injEq, and_true, reduceCtorEq, false_or, false_and,
        and_false, exists_false]
      exact ⟨fun h => Nat.le_antisymm hl h, fun h => Nat.le_of_eq h.symm⟩
    | some b => simp

/-- What the comparison of the recorded limits finds, against the declared ones. -/
theorem compared_iff {kind : ExternalKind} {size : ℕ} (hl : l.max.getD cap ≤ cap) (hm : m.max.getD cap ≤ cap)
    (hsize : comparedSize kind m size ≤ size) :
    ((l.min ≤ comparedSize kind m size ∧ (m.recorded cap).max ≤ (l.recorded cap).max) ↔ l.Matches m size) ↔
      ¬ Misjudged kind cap l m size := by
  rw [recorded_max_le hl hm]
  have hexcl : l.CapOnly cap m → ¬ l.MaxWithin m := by
    rintro ⟨hlmax, hmmax⟩ (hnone | ⟨a, b, -, hb, -⟩)
    · rw [hlmax] at hnone
      cases hnone
    · rw [hmmax] at hb
      cases hb
  unfold Binary.Limits.Matches Misjudged
  by_cases hmin : l.min ≤ comparedSize kind m size
  · have hle : l.min ≤ size := Nat.le_trans hmin hsize
    have hkept : ¬ (kind = .table ∧ m.min < l.min ∧ l.min ≤ size ∧ l.MaxWithin m) := by
      rintro ⟨hkind, hlt, -⟩
      rw [comparedSize, if_pos hkind] at hmin
      exact absurd hmin (Nat.not_le.mpr hlt)
    rw [or_iff_left hkept]
    simp only [hmin, hle, true_and, and_true]
    constructor
    · intro h hcap
      exact hexcl hcap (h.mp (Or.inr hcap))
    · intro h
      exact ⟨fun hmax => hmax.resolve_right h, fun hmax => Or.inl hmax⟩
  · simp only [hmin, false_and, and_false, false_or, false_iff]
    apply not_congr
    constructor
    · intro hmatch
      have hkind : kind = .table := by
        by_contra hne
        rw [comparedSize, if_neg hne] at hmin
        exact hmin hmatch.1
      rw [comparedSize, if_pos hkind] at hmin
      exact ⟨hkind, Nat.not_le.mp hmin, hmatch⟩
    · rintro ⟨-, -, hmatch⟩
      exact hmatch

end Declared

/-! ### The round of an import -/

section Round
variable {k : ℕ} {mod : Module} {vm : Vm} {kind : ExternalKind} {i t idx : ℕ} {path : ImportPath} {a : Addr}
  {c : LimitCheck}

theorem linkRound_ok {x : ExternalKind × ℕ} : (linkRound k mod x vm).1 = .ok () ↔ ∃ a, linkAddr k mod x vm = .ok a := by
  constructor
  · intro h
    obtain ⟨a, vm1, hread, -⟩ := Eff.bind_ok.mp (Prod.ext h rfl : linkRound k mod x vm = (.ok (), _))
    exact ⟨a, (Eff.read_ok hread).1⟩
  · rintro ⟨a, ha⟩
    have hread : Eff.read (linkAddr k mod x) vm = (.ok a, vm) := by rw [Eff.read, ha]
    have hround : linkRound k mod x vm = (.ok (), vm.modifyInst k (putAddr x a)) :=
      Eff.bind_ok.mpr ⟨a, vm, hread, rfl⟩
    rw [hround]

/-- The round passes if the target fits. -/
theorem linkRound_fits (hpath : mod.importPath kind i = some path) (htarget : vm.linkTarget kind path = some (t, idx))
    (haddr : vm.addr (·.addrs kind) t idx = .ok a) :
    (linkRound k mod (kind, i) vm).1 = .ok () ↔ ImportFits mod vm a kind i := by
  rw [linkRound_ok]
  constructor
  · rintro ⟨a', ha'⟩
    obtain ⟨t', idx', htarget', haddr', hfits⟩ := (linkAddr_import hpath).mp ha'
    rw [htarget] at htarget'
    cases htarget'
    rw [haddr] at haddr'
    cases haddr'
    exact hfits
  · intro hfits
    exact ⟨a, (linkAddr_import hpath).mpr ⟨t, idx, htarget, haddr, hfits⟩⟩

theorem fits_iff {m : Binary.Limits} (hc : ChecksLimits mod vm i a kind c) (htyped : c.typed = true)
    (hm : c.target = m.recorded c.cap) :
    ImportFits mod vm a kind i ↔ c.lim.min ≤ comparedSize kind m c.size ∧ c.target.max ≤ c.lim.max := by
  cases hc with
  | @table d t hd ht =>
    have hmin : t.tab.lim.min = m.min := congrArg Limits.min hm
    have htype : d.valtype = t.tab.valtype := of_decide_eq_true htyped
    rw [comparedSize, if_pos rfl, ← hmin]
    constructor
    · rintro ⟨d', t', hd', ht', -, hle, hmax⟩
      obtain rfl : d = d' := Option.some.inj (hd.symm.trans hd')
      obtain rfl : t = t' := Except.ok.inj (ht.symm.trans ht')
      exact ⟨hle, hmax⟩
    · rintro ⟨hle, hmax⟩
      exact ⟨d, t, hd, ht, htype, hle, hmax⟩
  | @memory d t hd ht =>
    rw [comparedSize, if_neg (by decide)]
    constructor
    · rintro ⟨d', t', hd', ht', hle, hmax⟩
      obtain rfl : d = d' := Option.some.inj (hd.symm.trans hd')
      obtain rfl : t = t' := Except.ok.inj (ht.symm.trans ht')
      exact ⟨hle, hmax⟩
    · rintro ⟨hle, hmax⟩
      exact ⟨d, t, hd, ht, hle, hmax⟩

/-- A table is at least as large as it was declared. -/
theorem comparedSize_le {m : Binary.Limits} (hc : ChecksLimits mod vm i a kind c)
    (hsized : vm.All fun mi => ∀ t ∈ mi.tables, t.Sized) (hdeclares : vm.Declares kind a)
    (hd : ∀ mi ∈ vm.instances, mi.Declared) (hm : c.target = m.recorded c.cap) :
    comparedSize kind m c.size ≤ c.size := by
  cases hc with
  | memory => exact Nat.le_refl _
  | @table d t hdecl ht =>
    have hmin : t.tab.lim.min = m.min := congrArg Limits.min hm
    rw [comparedSize, if_pos rfl, ← hmin]
    obtain ⟨mi, hmi, htab⟩ := Vm.table_ok.mp ht
    have hmem := List.mem_of_getElem? hmi
    obtain ⟨target, htarget, -, hown⟩ := hdeclares
    rw [Vm.mods, List.getElem?_map, hmi] at htarget
    cases htarget
    have hentry : mi.mod.tables[a.idx]? = some t.tab := by
      rw [← (hd mi hmem).tables, List.getElem?_map, htab]
      rfl
    have himp : t.tab.linkage.imported = false := by
      rw [Module.importPath, hentry, Option.bind_some] at hown
      cases himp : t.tab.linkage.imported with
      | false => rfl
      | true => rw [himp] at hown; cases hown
    exact (hsized mi hmem t (List.mem_of_getElem? htab) himp).1

/-- An import that leads to a ready instance leads to a definition. -/
theorem Grounded.target (h : Grounded vm) (htarget : vm.linkTarget kind path = some (t, idx)) (hready : vm.Ready t) :
    ∃ a, vm.addr (·.addrs kind) t idx = .ok a ∧ vm.Declares kind a := by
  obtain ⟨mi, exp, hmi, -, rfl, hexp⟩ := Vm.linkTarget_ok htarget
  have hmod : mi.mod ∈ vm.mods := List.mem_map_of_mem (List.mem_of_getElem? hmi)
  have hbound := h.exports mi.mod hmod exp (List.mem_of_find?_eq_some hexp)
  have hmatch := List.find?_some hexp
  simp only [Bool.and_eq_true, beq_iff_eq] at hmatch
  rw [hmatch.1] at hbound
  obtain ⟨a, ha⟩ := h.ready t hready mi hmi kind exp.externalIdx hbound
  exact ⟨a, Vm.addr_ok.mpr ⟨mi, hmi, ha⟩, h.entries t mi kind _ a hmi ha⟩

/-- The import and the definition have limits to compare. -/
theorem Grounded.checksLimits (h : Grounded vm) (hkind : kind = .table ∨ kind = .memory) (hi : i < mod.space kind)
    (ha : vm.Declares kind a) : ∃ c, ChecksLimits mod vm i a kind c := by
  obtain ⟨target, htarget, hlt, -⟩ := ha
  rw [Vm.mods, List.getElem?_map] at htarget
  obtain ⟨mi, hmi, rfl⟩ := Option.map_eq_some_iff.mp htarget
  have hdeclared := h.declared mi (List.mem_of_getElem? hmi)
  rcases hkind with rfl | rfl
  · have hlen : a.idx < mi.tables.length := by
      rw [← List.length_map (·.tab), hdeclared.tables]
      exact hlt
    exact ⟨_, .table (List.getElem?_eq_getElem hi) (Vm.table_ok.mpr ⟨mi, hmi, List.getElem?_eq_getElem hlen⟩)⟩
  · have hlen : a.idx < mi.memories.length := by
      rw [← List.length_map (·.mem), hdeclared.memories]
      exact hlt
    exact ⟨_, .memory (List.getElem?_eq_getElem hi) (Vm.memory_ok.mpr ⟨mi, hmi, List.getElem?_eq_getElem hlen⟩)⟩

end Round

section Run
variable {pf : Platform} {s : System} {modId : ℕ} {mod mod' : Module} {done rest : List (ExternalKind × ℕ)}
  {kind : ExternalKind} {i : ℕ} {vm : Vm} {path : ImportPath} {t idx : ℕ}

/-- What holds of the VM before a round. -/
theorem round_grounded (hrun : ReflTransGen (SysStep pf Module.OfHost) {} s) (hm : mod.OfHost)
    (hval : validateFuncs mod.funcs.length mod = .ok mod') (hrounds : mod'.rounds = done ++ rest)
    (hlink : Eff.each (linkRound s.vm.instances.length mod') done (s.vm.push modId mod') = (.ok (), vm)) :
    Grounded vm ∧ vm.All fun mi => ∀ t ∈ mi.tables, t.Sized := by
  have hof := hm.validated (validateFuncs_ok hval).parsed
  have hpushed : Grounded (s.vm.push modId mod') := (run_grounded hrun).push hof.exports
  constructor
  · have hdone : ∀ x ∈ done, x.2 < mod'.space x.1 := fun x hx =>
      mem_rounds.mp (by rw [hrounds]; exact List.mem_append_left _ hx)
    have hafter := (Eff.Triple.each fun x hx => linkRound_grounded (hdone x hx)) _ ⟨hpushed, mods_push s.vm modId mod'⟩
    exact (hafter.1 _ _ hlink).1
  · have hbefore : (s.vm.push modId mod').All fun mi => ∀ t ∈ mi.tables, t.Sized := by
      intro mi hmi
      rcases List.mem_append.mp hmi with hmi | hmi
      · exact contents_tables.run hrun mi hmi
      · rw [List.mem_singleton.mp hmi]
        exact (@contents_tables pf).new hm hval
    have hround : ∀ x, Eff.Triple (fun w => w.All fun mi => ∀ t ∈ mi.tables, t.Sized)
        (linkRound s.vm.instances.length mod' x) (fun _ w => w.All fun mi => ∀ t ∈ mi.tables, t.Sized)
        (fun w => w.All fun mi => ∀ t ∈ mi.tables, t.Sized) := by
      intro x
      refine .bind (.read (fun _ _ hs _ => hs) fun _ hs => hs) fun a => .modify fun w hw => ?_
      obtain ⟨kind, i⟩ := x
      exact (@contents_tables pf).modifyInst hw fun mi => by cases kind <;> exact ⟨rfl, rfl⟩
    exact ((Eff.Triple.each fun x _ => hround x) _ hbefore).1 _ _ hlink

/-- In every reachable state, an import of a table or memory that leads to a ready instance is compared
with a definition; where the types agree, the round passes for exactly the imports that match if and
only if the declared limits and the size are not of the two kinds on which the comparison errs. -/
theorem linkRound_limits (hrun : ReflTransGen (SysStep pf Module.OfHost) {} s) (hm : mod.OfHost)
    (hval : validateFuncs mod.funcs.length mod = .ok mod') (hkind : kind = .table ∨ kind = .memory)
    (hrounds : mod'.rounds = done ++ (kind, i) :: rest)
    (hlink : Eff.each (linkRound s.vm.instances.length mod') done (s.vm.push modId mod') = (.ok (), vm))
    (hpath : mod'.importPath kind i = some path) (htarget : vm.linkTarget kind path = some (t, idx))
    (hready : vm.Ready t) :
    ∃ a c, vm.addr (·.addrs kind) t idx = .ok a ∧ ChecksLimits mod' vm i a kind c ∧
      (c.typed = true → ∀ l m : Binary.Limits, l.ReadAs c.cap c.lim → m.ReadAs c.cap c.target →
        (((linkRound s.vm.instances.length mod' (kind, i) vm).1 = .ok () ↔ l.Matches m c.size) ↔
          ¬ Misjudged kind c.cap l m c.size)) := by
  obtain ⟨hground, hsized⟩ := round_grounded hrun hm hval hrounds hlink
  have hi : i < mod'.space kind := mem_rounds.mp (by rw [hrounds]; exact List.mem_append_right _ List.mem_cons_self)
  obtain ⟨a, haddr, hdeclares⟩ := hground.target htarget hready
  obtain ⟨c, hc⟩ := hground.checksLimits hkind hi hdeclares
  refine ⟨a, c, haddr, hc, fun htyped l m hl hm => ?_⟩
  have hlmin : c.lim.min = l.min := congrArg Limits.min hl.recorded
  have hsize := comparedSize_le hc hsized hdeclares hground.declared hm.recorded
  rw [linkRound_fits hpath htarget haddr, fits_iff hc htyped hm.recorded, hlmin, hl.recorded, hm.recorded]
  exact compared_iff hl.max_le hm.max_le hsize

end Run

/-! ### A table that has grown -/

/-- A module `a` with a table of one entry, exported as `b`, whose start function grows the table by one. -/
def growTable : Module where
  names := [[0x61]]
  formatVersion := 1
  funcTypes := [{}]
  funcs := [{ code := [0xd0, 0x70, 0x41, 1, 0xfc, 0x0f, 0, 0x1a, 0x0b] }]
  tables := [{ valtype := .funcref, lim := ⟨1, u32Max⟩, linkage := { exported := true } }]
  exports := [⟨[0x62], .table, 0⟩]
  startFuncidx := some 0

theorem loaded_growTable : Loaded growTable := by
  have hmod : moduleInit [0x00, 0x61, 0x73, 0x6d, 1, 0, 0, 0, 1, 4, 1, 0x60, 0, 0, 3, 2, 1, 0, 4, 4, 1, 0x70, 0, 1,
      7, 5, 1, 1, 0x62, 1, 0, 8, 1, 0, 10, 12, 1, 10, 0, 0xd0, 0x70, 0x41, 1, 0xfc, 0x0f, 0, 0x1a, 0x0b] [0x61] =
      .ok growTable := by rfl
  exact .init hmod

/-- A module that imports the table `b` of `a` with these limits. -/
def tableImporter (lim : Limits) : Module where
  names := [[]]
  formatVersion := 1
  tables := [{ valtype := .funcref, lim := lim, linkage := { imported := true }, path := ⟨[0x61], [0x62]⟩ }]
  importedTableCount := 1

theorem loaded_tableImporter : Loaded (tableImporter ⟨2, u32Max⟩) := by
  have hmod : moduleInit [0x00, 0x61, 0x73, 0x6d, 1, 0, 0, 0, 2, 9, 1, 1, 0x61, 1, 0x62, 1, 0x70, 0, 2] [] =
      .ok (tableImporter ⟨2, u32Max⟩) := by rfl
  exact .init hmod

/-- The instance of `growTable` in this state and with these entries. -/
def growTableVm (state : ModuleInstState) (tdata : List ValueU) : Vm where
  instances := [{ moduleInstNew 0 { growTable with funcs := growTable.funcs.map ({ · with stackSizeMax := 2 }) } with
    state := state
    tables := [{ tab := { valtype := .funcref, lim := ⟨1, u32Max⟩, linkage := { exported := true } }, tdata := tdata }]
    fAddrs := [some ⟨0, 0⟩]
    tAddrs := [some ⟨0, 0⟩] }]

theorem grown_reached : ReflTransGen (SysStep idle Module.OfHost) {}
    { vm := growTableVm .ready [nullref, nullref] } := by
  let starting (tdata stack : List ValueU) (pc : ℤ) : System := {
    vm := growTableVm .uninitialized tdata
    running := some ⟨[⟨⟨0, 0⟩, ⟨⟨pc, 0⟩, stack⟩, [], 0⟩], { frameDepth := 1, stackSize := 2 }, .start 0⟩ }
  have hinst : instantiateStep idle {} 0 growTable = .ok (starting [nullref] [] 0) := by decide +kernel
  have h1 : SysStep idle Module.OfHost (starting [nullref] [] 0) (starting [nullref] [nullref] 2) :=
    .run rfl
  have h2 : SysStep idle Module.OfHost (starting [nullref] [nullref] 2) (starting [nullref] [1, nullref] 4) :=
    .run rfl
  have h3 : SysStep idle Module.OfHost (starting [nullref] [1, nullref] 4) (starting [nullref, nullref] [1] 7) :=
    .run rfl
  have h4 : SysStep idle Module.OfHost (starting [nullref, nullref] [1] 7) (starting [nullref, nullref] [] 8) :=
    .run rfl
  have h5 : SysStep idle Module.OfHost (starting [nullref, nullref] [] 8)
      { vm := growTableVm .ready [nullref, nullref] } := .run rfl
  have hfirst : SysStep idle Module.OfHost {} (starting [nullref] [] 0) :=
    .instantiate ⟨_, loaded_growTable, rfl⟩ hinst
  exact (((((ReflTransGen.single hfirst).tail h1).tail h2).tail h3).tail h4).tail h5

/-- Limits without a maximum, in two bytes. -/
theorem open_readAs {cap : ℕ} (b : UInt8) (hb : b.toNat < 2 ^ 7) (hcap : b.toNat ≤ cap) :
    Binary.Limits.ReadAs cap ⟨b.toNat, none⟩ ⟨b.toNat, cap⟩ := by
  have hencodes : (⟨b.toNat, none⟩ : Binary.Limits).Encodes ([0x00] ++ [b]) :=
    .open_ (.last b hb (Nat.lt_trans hb (by decide)))
  exact ⟨_, hencodes, parseLimits_reads hencodes ⟨hcap, Nat.le_refl _⟩⟩

theorem linkRound_limits_grown : ∃ s a c, ReflTransGen (SysStep idle Module.OfHost) {} s ∧
    ChecksLimits (tableImporter ⟨2, u32Max⟩) (s.vm.push 1 (tableImporter ⟨2, u32Max⟩)) 0 a .table c ∧
    (c.typed = true → ∀ l m : Binary.Limits, l.ReadAs c.cap c.lim → m.ReadAs c.cap c.target →
      (((linkRound 1 (tableImporter ⟨2, u32Max⟩) (.table, 0) (s.vm.push 1 (tableImporter ⟨2, u32Max⟩))).1 = .ok () ↔
        l.Matches m c.size) ↔ ¬ Misjudged .table c.cap l m c.size)) := by
  let vm := (growTableVm .ready [nullref, nullref]).push 1 (tableImporter ⟨2, u32Max⟩)
  have hrounds : (tableImporter ⟨2, u32Max⟩).rounds = [] ++ (.table, 0) :: [] := rfl
  have hlink : Eff.each (linkRound 1 (tableImporter ⟨2, u32Max⟩)) [] vm = (.ok (), vm) := rfl
  have hready : vm.Ready 0 := ⟨_, rfl, rfl⟩
  obtain ⟨a, c, -, hc, hjudged⟩ := linkRound_limits grown_reached ⟨_, loaded_tableImporter, rfl⟩ rfl
    (Or.inl rfl) hrounds
    hlink rfl rfl hready
  exact ⟨_, a, c, grown_reached, hc, hjudged⟩

/-- A table that was declared with one entry and has two is not taken for an import of two. -/
theorem grown_table_rejected : ∃ s, ReflTransGen (SysStep idle Module.OfHost) {} s ∧
    (tableImporter ⟨2, u32Max⟩).OfHost ∧
    (s.vm.push 1 (tableImporter ⟨2, u32Max⟩)).linkTarget .table ⟨[0x61], [0x62]⟩ = some (0, 0) ∧
    (s.vm.push 1 (tableImporter ⟨2, u32Max⟩)).Ready 0 ∧
    ∃ c l m, ChecksLimits (tableImporter ⟨2, u32Max⟩) (s.vm.push 1 (tableImporter ⟨2, u32Max⟩)) 0 ⟨0, 0⟩ .table c ∧
      c.typed = true ∧ Binary.Limits.ReadAs c.cap l c.lim ∧ Binary.Limits.ReadAs c.cap m c.target ∧
      l.Matches m c.size ∧
      (linkRound 1 (tableImporter ⟨2, u32Max⟩) (.table, 0) (s.vm.push 1 (tableImporter ⟨2, u32Max⟩))).1 ≠ .ok () := by
  refine ⟨_, grown_reached, ⟨_, loaded_tableImporter, rfl⟩, rfl, ⟨_, rfl, rfl⟩, _, ⟨2, none⟩, ⟨1, none⟩, .table rfl rfl,
    rfl, open_readAs 2 (by decide) (by decide), open_readAs 1 (by decide) (by decide), ⟨Nat.le_refl _, Or.inl rfl⟩, ?_⟩
  decide +kernel

end Silverfir

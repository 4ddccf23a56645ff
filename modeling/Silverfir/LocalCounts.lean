import Silverfir.SectionCounts
import Silverfir.RoundTrip

/-! The number of locals of a function. The parser adds the groups up in 64 bits, without the
parameters, to see that they are not too many, and counts the locals in 32 bits from the parameters on. -/
namespace Silverfir

open Grammar (Items)

/-- How many locals the entry at this place has. -/
def localSum (ss : List RawSection) (k : ℕ) : ℕ := ((entriesOf ss)[k]?.map CodeEntry.localCount).getD 0

/-- The assertions of `validator_on_decode_begin`: the parameters are among the locals, and the
parameters and the locals pushed one after the other are as many as there are locals. -/
def Func.BeginAsserts (f : Func) : Prop :=
  f.fnType.paramCount ≤ f.localCount ∧
    ∀ ps, parseTypes f.fnType.paramCount f.fnType.params = .ok ps → (ps ++ f.localTypes).length = f.localCount

/-- The number of locals is what it should be, as a natural number. -/
structure Func.LocalsCounted (f : Func) (locals : ℕ) : Prop where
  sum : f.localCount = f.fnType.paramCount + locals
  types : f.localCount = f.fnType.paramCount + f.localTypes.length
  asserts : f.BeginAsserts

/-- The number of locals is right exactly if it does not wrap. -/
theorem parseModule_locals (bin : Str) (mod : Module) (h : parseModule bin = .ok mod) :
    ∃ ss, sectionsOf bin = .ok ss ∧ ∀ i f, mod.importedFuncCount ≤ i → mod.funcs[i]? = some f →
      (f.LocalsCounted (localSum ss (i - mod.importedFuncCount)) ↔
        f.fnType.paramCount + localSum ss (i - mod.importedFuncCount) < 2 ^ 32) := by
  obtain ⟨ss, ps, current, hss, hbase, hfuncs, -, rfl⟩ := parseModule_counted h
  refine ⟨ss, hss, fun i f hi hf => ?_⟩
  have hsmall : f.fnType.paramCount < 2 ^ 32 := hbase.paramCount_lt (List.mem_of_getElem? hf)
  obtain ⟨hcount, htypes⟩ : f.localCount = u32 (f.fnType.paramCount + localSum ss (i - ps.mod.importedFuncCount)) ∧
      f.localTypes.length = localSum ss (i - ps.mod.importedFuncCount) := by
    cases he : (entriesOf ss)[i - ps.mod.importedFuncCount]? with
    | none =>
      have hunwritten : f.Unwritten := by
        by_cases hfilled : Filled 10 ss
        · have hlt := (List.getElem?_eq_some_iff.mp hf).1
          have hown := hfuncs.own
          have hentries := hfuncs.entries hfilled
          have hbeyond := List.getElem?_eq_none_iff.mp he
          dsimp only at hown
          omega
        · exact hfuncs.unwritten hfilled i f hi hf
      rw [localSum, he, hunwritten.localCount, hunwritten.localTypes]
      exact ⟨(Nat.mod_eq_of_lt hsmall).symm, rfl⟩
    | some e =>
      obtain ⟨-, -, f', hf', hwritten⟩ := hfuncs.written _ _ he
      rw [Nat.add_sub_cancel' hi] at hf'
      cases hf.symm.trans hf'
      rw [localSum, he]
      refine ⟨hwritten.localCount, ?_⟩
      rw [hwritten.localTypes, e.localTypes_length]
      rfl
  constructor
  · intro hcounted
    have hwrapped : u32 (f.fnType.paramCount + localSum ss (i - ps.mod.importedFuncCount)) < 2 ^ 32 :=
      Nat.mod_lt _ (by decide)
    rwa [← hcount, hcounted.sum] at hwrapped
  · intro hlt
    have hsum : f.localCount = f.fnType.paramCount + localSum ss (i - ps.mod.importedFuncCount) := by
      rw [hcount]
      exact Nat.mod_eq_of_lt hlt
    refine ⟨hsum, by rw [hsum, htypes], ⟨by omega, fun params hparams => ?_⟩⟩
    rw [List.length_append, parseTypes_length hparams, htypes, hsum]

/-- A function with a parameter and two locals. -/
def twoLocals : Str :=
  [0x00, 0x61, 0x73, 0x6d, 1, 0, 0, 0, 1, 5, 1, 0x60, 1, 0x7f, 0, 3, 2, 1, 0, 10, 6, 1, 4, 1, 2, 0x7f, 0x0b]

def twoLocalsModule : Module :=
  { formatVersion := 1
    funcTypes := [⟨1, 0, [0x7f], []⟩]
    funcs := [{ fnType := ⟨1, 0, [0x7f], []⟩, localCount := 3, localTypes := [.i32, .i32], code := [0x0b] }] }

theorem parseModule_locals_two : ∃ mod, parseModule twoLocals = .ok mod ∧ ∃ ss, sectionsOf twoLocals = .ok ss ∧
    ∀ i f, mod.importedFuncCount ≤ i → mod.funcs[i]? = some f →
      (f.LocalsCounted (localSum ss (i - mod.importedFuncCount)) ↔
        f.fnType.paramCount + localSum ss (i - mod.importedFuncCount) < 2 ^ 32) :=
  have h : parseModule twoLocals = .ok twoLocalsModule := by decide +kernel
  ⟨_, h, parseModule_locals twoLocals _ h⟩

/-- A function with a parameter and `n` locals. -/
def manyLocals (n : ℕ) : Binary.Module where
  types := [⟨[.i32], []⟩]
  funcs := [0]
  codes := [⟨[⟨n, .i32⟩], [0x0b], List.cons_ne_nil _ _⟩]

/-- As many locals as the format allows. -/
def manyLocalsBin : Str :=
  [0x00, 0x61, 0x73, 0x6d, 1, 0, 0, 0, 1, 5, 1, 0x60, 1, 0x7f, 0, 3, 2, 1, 0,
    10, 10, 1, 8, 1, 0xff, 0xff, 0xff, 0xff, 0x0f, 0x7f, 0x0b]

theorem manyLocals_encodes {n : ℕ} (hn : Binary.U32 n [0xff, 0xff, 0xff, 0xff, 0x0f]) :
    (manyLocals n).Encodes manyLocalsBin := by
  have hnumber : ∀ b : UInt8, b.toNat < 128 → Binary.U32 b.toNat [b] := fun b hb =>
    .last b hb (lt_trans hb (by decide))
  have hparam : Items (fun (t : Binary.ValType) w => w = [t.byte]) [.i32] ([0x7f] ++ []) := .cons rfl .nil
  have hparams : Binary.Vector (fun (t : Binary.ValType) w => w = [t.byte]) [.i32] ([1] ++ [0x7f]) :=
    .mk (hnumber 1 (by decide)) hparam
  have hresults : Binary.Vector (fun (t : Binary.ValType) w => w = [t.byte]) [] ([0] ++ []) :=
    .mk (hnumber 0 (by decide)) .nil
  have htypes : (manyLocals n).Content 1 ([1] ++ [0x60, 1, 0x7f, 0]) :=
    Binary.Vector.mk (hnumber 1 (by decide)) (.cons (Binary.FuncType.Encodes.mk hparams hresults) .nil)
  have hfuncs : (manyLocals n).Content 3 ([1] ++ [0]) :=
    Binary.Vector.mk (hnumber 1 (by decide)) (.cons (hnumber 0 (by decide)) .nil)
  have hlocals : Binary.Vector Binary.Locals.Encodes [⟨n, .i32⟩] ([1] ++ [0xff, 0xff, 0xff, 0xff, 0x0f, 0x7f]) :=
    .mk (hnumber 1 (by decide)) (.cons (Binary.Locals.Encodes.mk hn) .nil)
  have hcodes : (manyLocals n).Content 10 ([1] ++ [8, 1, 0xff, 0xff, 0xff, 0xff, 0x0f, 0x7f, 0x0b]) :=
    Binary.Vector.mk (hnumber 1 (by decide))
      (.cons (Binary.Code.Encodes.mk (c := ⟨[⟨n, .i32⟩], [0x0b], List.cons_ne_nil _ _⟩) hlocals
        (hnumber 8 (by decide))) .nil)
  have hfrom10 : (manyLocals n).Sections [10, 11] _ :=
    .present hcodes (.mk (hnumber 10 (by decide))) (.omitted rfl .nil)
  have hfrom3 : (manyLocals n).Sections [3, 4, 5, 6, 7, 8, 9, 12, 10, 11] _ :=
    .present hfuncs (.mk (hnumber 2 (by decide)))
      (.omitted rfl (.omitted rfl (.omitted rfl (.omitted rfl (.omitted rfl (.omitted rfl (.omitted rfl hfrom10)))))))
  have hsections : (manyLocals n).Sections Binary.sectionIds _ :=
    .present htypes (.mk (hnumber 5 (by decide))) (.omitted rfl hfrom3)
  exact .mk hsections

theorem manyLocals_checked {n : ℕ} (hn : n ≤ u32Max) : (manyLocals n).Checked where
  types := by
    intro t ht
    rw [List.mem_singleton.mp ht]
    decide
  typeidxs := by
    intro idx hidx
    rw [List.mem_singleton.mp hidx]
    exact Nat.one_pos
  imports := fun i hi => absurd hi List.not_mem_nil
  tables := fun t ht => absurd ht List.not_mem_nil
  memories := fun l hl => absurd hl List.not_mem_nil
  exports := fun e he => absurd he List.not_mem_nil
  start := fun idx hidx => nomatch hidx
  elems := fun e he => absurd he List.not_mem_nil
  dataCount := fun m hm => nomatch hm
  codes := rfl
  locals := by
    intro c hc
    rw [List.mem_singleton.mp hc]
    exact hn
  memidxs := fun d hd => absurd hd List.not_mem_nil

/-- With the parameter there are `2 ^ 32` locals, which count as none. -/
theorem wrapped_locals_accepted : ¬ ∀ bin mod, parseModule bin = .ok mod →
    ∃ ss, sectionsOf bin = .ok ss ∧ ∀ i f, mod.importedFuncCount ≤ i → mod.funcs[i]? = some f →
      f.LocalsCounted (localSum ss (i - mod.importedFuncCount)) := by
  intro hall
  obtain ⟨n, hn, hmax⟩ : ∃ n, Binary.U32 n [0xff, 0xff, 0xff, 0xff, 0x0f] ∧ n = u32Max := by
    refine ⟨_, .more 0xff ?_ ?_ (.more 0xff ?_ ?_ (.more 0xff ?_ ?_ (.more 0xff ?_ ?_ (.last 0x0f ?_ ?_)))),
      ?_⟩ <;> decide
  obtain ⟨dataCount, hparse, -⟩ := parse_encoded _ _ (manyLocals_checked hmax.le) (manyLocals_encodes hn)
  obtain ⟨ss, hss, hlocals⟩ := hall _ _ hparse
  have hentries : (sectionsOf manyLocalsBin).map entriesOf = .ok [⟨[⟨4294967295, .i32⟩], [0x0b]⟩] := by decide +kernel
  rw [hss] at hentries
  have hone : entriesOf ss = [⟨[⟨4294967295, .i32⟩], [0x0b]⟩] := Except.ok.inj hentries
  have hcounted := hlocals 0 _ (Nat.le_refl 0) rfl
  have hsum := hcounted.sum
  rw [localSum, hone] at hsum
  have hcount : (1 + (Binary.localTypes [⟨n, .i32⟩]).length) % 2 ^ 32 = 1 + 4294967295 := hsum
  have hlt := Nat.mod_lt (1 + (Binary.localTypes [⟨n, .i32⟩]).length) (show 2 ^ 32 > 0 by decide)
  rw [hcount] at hlt
  exact absurd hlt (by decide)

end Silverfir

import Silverfir.VecRepr
import Silverfir.Vstr

/-! What is in a `vstr` after bytes have been appended. -/
namespace Silverfir

open VecImpl VstrM

/-- The vector has these bytes. -/
def VstrState.Stores (t : VstrState) (bytes : List UInt8) : Prop :=
  VecState.Holds 1 ⟨t.heap, t.vs.v⟩ (bytes.map ([·])) ∧ t.vs.v.fixed = false

/-- The string is in a static buffer, and the vector is empty. -/
structure VstrState.Static (t : VstrState) (bytes : List UInt8) : Prop where
  vec : t.vs.v = {}
  view : t.vs.s.bytes t.heap = some bytes
  len : t.vs.s.len ≤ ptrdiffMax

/-- The string is null or in the storage of the vector. -/
structure VstrState.OnHeap (t : VstrState) (bytes : List UInt8) : Prop where
  stores : t.Stores bytes
  inStep : t.vs.InStep

section Views
variable {heap heap' : Heap (List UInt8)} {s : StrView} {bytes : List UInt8} {t : VstrState}

theorem StrView.length_bytes (h : s.bytes heap = some bytes) : bytes.length = s.len := by
  unfold StrView.bytes at h
  split at h
  · split at h
    · next hzero =>
      cases h
      exact hzero.symm
    · cases h
  · next a off hptr =>
    unfold Heap.load at h
    cases hblock : heap a with
    | none =>
      rw [hblock] at h
      cases h
    | some block =>
      rw [hblock, Option.bind_some] at h
      split at h
      · next hfits =>
        cases h
        rw [List.length_take, List.length_drop]
        omega
      · cases h

theorem flatten_singletons (bytes : List UInt8) : (bytes.map ([·])).flatten = bytes := by
  induction bytes with
  | nil => rfl
  | cons b rest ih => rw [List.map_cons, List.flatten_cons, ih, List.singleton_append]

/-- The bytes are read from one block. -/
theorem StrView.bytes_congr (hsame : ∀ a off, s.ptr = some (a, off) → heap' a = heap a) :
    s.bytes heap' = s.bytes heap := by
  unfold StrView.bytes
  cases hptr : s.ptr with
  | none => rfl
  | some p =>
    obtain ⟨a, off⟩ := p
    simp only [Heap.load, hsame a off hptr]

/-- What the view shows of the storage. -/
theorem VstrState.OnHeap.view (h : t.OnHeap bytes) : t.vs.s.bytes t.heap = some bytes := by
  obtain ⟨⟨hholds, -⟩, hptr, hlen⟩ := h
  have hsize : t.vs.v.size = bytes.length := hholds.size.trans (List.length_map _)
  unfold StrView.bytes
  rw [hptr, hlen, hsize]
  cases hdata : t.vs.v.data with
  | none =>
    have hnil := (hholds.empty hdata).2
    rw [List.map_eq_nil_iff] at hnil
    rw [hnil]
    rfl
  | some a =>
    obtain ⟨block, hblock, hblen, -, -, hle, rest, hrest⟩ := hholds.stored a hdata
    rw [flatten_singletons] at hrest
    simp only [Option.map_some, Heap.load]
    rw [show t.heap a = some block from hblock, Option.bind_some, Nat.zero_add, List.drop_zero, ← hrest,
      if_pos (by rw [List.length_append]; exact Nat.le_add_right _ _), List.take_left]

end Views

/-! ### One call -/

section Calls
variable {t : VstrState} {s : StrView} {bytes new : List UInt8} {xs ys : List (List UInt8)}
  {g : Option (Heap.Grant UInt8)} {c : UInt8}

theorem onVec_does {m : VecM UInt8 Unit} (h : VecState.Does 1 ⟨t.heap, t.vs.v⟩ m ys) :
    (∃ heap v, onVec m t = (.ok (), ⟨heap, { t.vs with v := v }⟩) ∧
        VecState.Becomes 1 ⟨t.heap, t.vs.v⟩ ⟨heap, v⟩ ys) ∨
      ∃ msg, onVec m t = (err .general msg, t) := by
  unfold onVec
  rcases h with ⟨s', hm, hbecomes⟩ | ⟨msg, hm⟩
  · rw [hm]
    exact Or.inl ⟨s'.heap, s'.vec, rfl, hbecomes⟩
  · rw [hm]
    exact Or.inr ⟨msg, rfl⟩

theorem zeros_eq (n : ℕ) : List.replicate n (List.replicate 1 (0 : UInt8)) = (List.replicate n 0).map ([·]) := by
  rw [List.map_replicate]
  rfl

/-- The vector is made as long as the string will be, and the new bytes are written at its end. Between what was in the
vector and the new bytes there are zeros. -/
theorem appendBytes_cases (hstores : t.Stores bytes) (hle : bytes.length ≤ t.vs.s.len) (hmax : t.vs.s.len ≤ ptrdiffMax)
    (hsrc : s.bytes t.heap = some new) (hne : new ≠ []) (hlen : s.len ≤ ptrdiffMax)
    (hapart : ∀ a off, s.ptr = some (a, off) → t.vs.v.data ≠ some a) :
    (∃ t', Vstr.appendBytes g s t = (.ok (), t') ∧ t'.vs.s = ⟨t'.vs.v.data.map (·, 0), t.vs.s.len + s.len⟩ ∧
        t'.Stores (bytes ++ List.replicate (t.vs.s.len - bytes.length) 0 ++ new)) ∨
      ∃ msg, Vstr.appendBytes g s t = (err .general msg, t) := by
  obtain ⟨hholds, hfree⟩ := hstores
  have hnew : new.length = s.len := StrView.length_bytes hsrc
  have hpos := List.length_pos_iff.mpr hne
  have hsum : sizeT (t.vs.s.len + s.len) = t.vs.s.len + s.len := by
    rw [ptrdiffMax] at hmax hlen
    exact Nat.mod_eq_of_lt (by omega)
  have hresize := resize_does (g := g) (n := t.vs.s.len + s.len) (0 : UInt8) hholds Nat.one_pos (fun _ _ => by
    rw [ptrdiffMax] at hmax hlen
    omega)
  unfold Vstr.appendBytes
  simp only [Eff.bind_apply, VstrM.get, hsum]
  rcases onVec_does hresize with ⟨heap, v, hvec, hbecomes⟩ | ⟨msg, hvec⟩
  · rw [List.length_map, zeros_eq, List.take_of_length_le (by rw [List.length_map]; omega), ← List.map_append,
      show t.vs.s.len + s.len - bytes.length = t.vs.s.len - bytes.length + new.length by omega,
      ← List.replicate_append_replicate, ← List.append_assoc, List.map_append] at hbecomes
    have hsome : ∀ y ∈ new.map ([·]), y.length = 1 := fun y hy => by
      obtain ⟨b, -, rfl⟩ := List.mem_map.mp hy
      rfl
    obtain ⟨a, heap', ha, hstore, hdone⟩ := overwrite_holds hbecomes.holds hsome
      (by rw [List.length_map, List.length_map, List.length_replicate])
      (fun hnil => hne (List.map_eq_nil_iff.mp hnil))
    rw [flatten_singletons, List.length_map, List.length_append, List.length_replicate, Nat.mul_one,
      Nat.add_sub_cancel' hle] at hstore
    have hread : s.bytes heap = some new := by
      rw [← hsrc]
      refine StrView.bytes_congr fun b off hptr => ?_
      refine hbecomes.other b (hapart b off hptr) fun hb => ?_
      have hnone : t.heap b = none := hbecomes.fresh b hb (hapart b off hptr)
      simp only [StrView.bytes, hptr, Heap.load, hnone, Option.bind_none] at hsrc
      cases hsrc
    have hfull : v.size ≠ 0 := by
      have hsize : v.size = _ := hbecomes.holds.size
      rw [List.length_append, List.length_map, List.length_map, List.length_replicate] at hsize
      omega
    replace ha : v.data = some a := ha
    replace hstore : Heap.store a t.vs.s.len new heap = some heap' := hstore
    simp only [hvec, Vstr.copyStatic, Eff.bind_apply, VstrM.get, if_neg hfull, Eff.pure_apply, memcpy, hread, ha,
      Option.bind_some, hstore]
    refine Or.inl ⟨_, rfl, ?_, ?_, hbecomes.fixed.trans hfree⟩
    · rw [ha]
      exact congrArg (StrView.mk _) hsum
    · rw [List.map_append]
      exact hdone
  · rw [hvec]
    exact Or.inr ⟨msg, rfl⟩

theorem appendC_cases (hstores : t.Stores bytes) (hmax : t.vs.s.len ≤ ptrdiffMax) :
    (∃ t', Vstr.appendC g c t = (.ok (), t') ∧ t'.vs.s = ⟨t'.vs.v.data.map (·, 0), t.vs.s.len + 1⟩ ∧
        t'.Stores (bytes ++ [c])) ∨
      ∃ msg, Vstr.appendC g c t = (err .general msg, t) := by
  obtain ⟨hholds, hfree⟩ := hstores
  have hsum : sizeT (t.vs.s.len + 1) = t.vs.s.len + 1 := by
    rw [ptrdiffMax] at hmax
    exact Nat.mod_eq_of_lt (by omega)
  have hpush := push_does (g := g) (e := [c]) hholds rfl Nat.one_pos (by decide)
  unfold Vstr.appendC
  simp only [Eff.bind_apply]
  rcases onVec_does hpush with ⟨heap, v, hvec, hbecomes⟩ | ⟨msg, hvec⟩
  · simp only [hvec, VstrM.get]
    refine Or.inl ⟨_, rfl, congrArg (StrView.mk _) hsum, ?_, hbecomes.fixed.trans hfree⟩
    rw [List.map_append]
    exact hbecomes.holds
  · rw [hvec]
    exact Or.inr ⟨msg, rfl⟩

theorem VstrState.Stores.onHeap (h : t.Stores bytes) (hview : t.vs.s = ⟨t.vs.v.data.map (·, 0), bytes.length⟩) :
    t.OnHeap bytes where
  stores := h
  inStep := by
    have hsize : t.vs.v.size = bytes.length := h.1.size.trans (List.length_map _)
    rw [Vstr.InStep, hview, hsize]
    exact ⟨rfl, rfl⟩

/-- A string that is in a static buffer, and of which the vector has nothing. -/
theorem VstrState.Static.stores (h : t.Static bytes) : t.Stores [] := by
  rw [VstrState.Stores, h.vec]
  exact ⟨⟨fun x hx => absurd hx List.not_mem_nil, rfl, fun _ => ⟨rfl, rfl⟩, fun a ha => by cases ha⟩, rfl⟩

end Calls

/-! ### Runs -/

/-- A call of one of the functions, with what the allocator returns in it. -/
inductive VstrCall where
  | append (grant : Option (Heap.Grant UInt8)) (s : StrView)
  | appendC (grant : Option (Heap.Grant UInt8)) (c : UInt8)

namespace VstrCall

def run : VstrCall → VstrM Unit
  | append grant s => Vstr.append grant s
  | appendC grant c => Vstr.appendC grant c

/-- The bytes of a `str` can be read, and they are not in the storage of the string, which may go while they are
needed. -/
def Allowed (t : VstrState) : VstrCall → Prop
  | append _ s => s.IsValid ∧ s.bytes t.heap ≠ none ∧ s.len ≤ ptrdiffMax ∧
      ∀ a off, s.ptr = some (a, off) → t.vs.v.data ≠ some a
  | appendC _ _ => True

def appended (heap : Heap (List UInt8)) : VstrCall → List UInt8
  | append _ s => (s.bytes heap).getD []
  | appendC _ c => [c]

/-- The string is in the storage of its vector, or nothing is lost when its bytes are not copied there. -/
def Keeps (t : VstrState) (bytes : List UInt8) (c : VstrCall) : Prop :=
  t.vs.InStep ∨
    match c with
    | append _ s => s.len ≠ 0 ∧ ∀ b ∈ bytes, b = 0
    | appendC _ _ => bytes = []

end VstrCall

/-- The string shows these bytes, from the storage of its vector, which has no others. -/
def VstrState.Shows (t : VstrState) (bytes : List UInt8) : Prop :=
  t.vs.s.bytes t.heap = some bytes ∧ t.vs.InStep

/-- What calls lead to that succeed, from any string on. Between the calls the rest of the program does what it likes to
the other blocks of the heap. -/
inductive VstrRun (cond : VstrState → List UInt8 → VstrCall → Prop) : VstrState → List UInt8 → Prop
  | static {t bytes} (h : t.Static bytes) : VstrRun cond t bytes
  | onHeap {t bytes} (h : t.OnHeap bytes) : VstrRun cond t bytes
  | call {t bytes c t'} (hrun : VstrRun cond t bytes) (hallowed : c.Allowed t) (hcond : cond t bytes c)
      (hok : c.run t = (.ok (), t')) : VstrRun cond t' (bytes ++ c.appended t.heap)
  | other {t bytes heap} (hrun : VstrRun cond t bytes)
      (hsame : ∀ a, t.vs.v.data = some a ∨ t.vs.s.ptr.map Prod.fst = some a → heap a = t.heap a) :
      VstrRun cond ⟨heap, t.vs⟩ bytes

section Runs
variable {t t' : VstrState} {bytes : List UInt8} {c : VstrCall} {heap : Heap (List UInt8)}

theorem VstrState.OnHeap.len (h : t.OnHeap bytes) : t.vs.s.len = bytes.length ∧ t.vs.s.len ≤ ptrdiffMax := by
  have hsize : t.vs.v.size = bytes.length := h.stores.1.size.trans (List.length_map _)
  have hlen := h.inStep.2.trans hsize
  refine ⟨hlen, ?_⟩
  by_cases hdata : t.vs.v.data = none
  · have hnil := (h.stores.1.empty hdata).2
    rw [List.map_eq_nil_iff] at hnil
    rw [hlen, hnil]
    exact Nat.zero_le _
  · obtain ⟨hmax, -, hle⟩ : t.vs.v.capacity * 1 ≤ ptrdiffMax ∧ _ ∧ _ ≤ t.vs.v.capacity :=
      h.stores.1.capacity_fits hdata
    rw [List.length_map] at hle
    omega

theorem VstrState.OnHeap.shows (h : t.OnHeap bytes) : t.Shows bytes := ⟨h.view, h.inStep⟩

/-- A call on a string in the storage of its vector. -/
theorem VstrState.OnHeap.call (h : t.OnHeap bytes) (hallowed : c.Allowed t) :
    (∃ t', c.run t = (.ok (), t') ∧ t'.OnHeap (bytes ++ c.appended t.heap)) ∨
      ∃ msg, c.run t = (err .general msg, t) := by
  obtain ⟨hlen, hmax⟩ := h.len
  cases c with
  | append grant s =>
    obtain ⟨hvalid, hread, hshort, hapart⟩ := hallowed
    obtain ⟨new, hnew⟩ := Option.ne_none_iff_exists'.mp hread
    have hcount := StrView.length_bytes hnew
    simp only [VstrCall.run, Vstr.append, if_pos hvalid, VstrCall.appended, hnew, Option.getD_some]
    by_cases hzero : s.len = 0
    · obtain rfl : new = [] := List.length_eq_zero_iff.mp (hcount.trans hzero)
      rw [if_pos hzero, List.append_nil]
      exact Or.inl ⟨t, rfl, h⟩
    · rw [if_neg hzero]
      have hne : new ≠ [] := by
        rintro rfl
        exact hzero hcount.symm
      rcases appendBytes_cases (g := grant) h.stores (Nat.le_of_eq hlen.symm) hmax hnew hne hshort hapart with
        ⟨t', hrun, hview, hstores⟩ | hfail
      · rw [hlen, Nat.sub_self, List.replicate_zero, List.append_nil] at hstores
        refine Or.inl ⟨t', hrun, hstores.onHeap ?_⟩
        rw [hview, List.length_append, hlen, hcount]
      · exact Or.inr hfail
  | appendC grant c =>
    rcases appendC_cases (g := grant) (c := c) h.stores hmax with ⟨t', hrun, hview, hstores⟩ | hfail
    · refine Or.inl ⟨t', hrun, hstores.onHeap ?_⟩
      rw [hview, List.length_append, hlen, List.length_singleton]
    · exact Or.inr hfail

/-- A static string in step with its vector is null. -/
theorem VstrState.Static.null (h : t.Static bytes) (hstep : t.vs.InStep) : t.OnHeap bytes := by
  have hnil : bytes = [] := by
    have hlen := StrView.length_bytes h.view
    rw [hstep.2, h.vec] at hlen
    exact List.length_eq_zero_iff.mp hlen
  subst hnil
  exact ⟨h.stores, hstep⟩

/-- A call on a string in a static buffer. What the vector gets in place of the static bytes are zeros, or nothing. -/
theorem VstrState.Static.call (h : t.Static bytes) (hout : ¬ t.vs.InStep) (hallowed : c.Allowed t) :
    (∃ t', c.run t = (.ok (), t') ∧ (t'.Shows (bytes ++ c.appended t.heap) ↔ c.Keeps t bytes) ∧
        (c.Keeps t bytes → t'.OnHeap (bytes ++ c.appended t.heap))) ∨
      ∃ msg, c.run t = (err .general msg, t) := by
  have hlen := StrView.length_bytes h.view
  cases c with
  | append grant s =>
    obtain ⟨hvalid, hread, hshort, hapart⟩ := hallowed
    obtain ⟨new, hnew⟩ := Option.ne_none_iff_exists'.mp hread
    have hcount := StrView.length_bytes hnew
    simp only [VstrCall.run, Vstr.append, if_pos hvalid, VstrCall.appended, VstrCall.Keeps, hnew, Option.getD_some,
      hout, false_or]
    by_cases hzero : s.len = 0
    · rw [if_pos hzero]
      refine Or.inl ⟨t, rfl, ⟨fun hshows => absurd hshows.2 hout, fun hkeeps => absurd hzero hkeeps.1⟩, fun hkeeps =>
        absurd hzero hkeeps.1⟩
    · rw [if_neg hzero]
      have hne : new ≠ [] := by
        rintro rfl
        exact hzero hcount.symm
      rcases appendBytes_cases (g := grant) h.stores (Nat.zero_le _) h.len hnew hne hshort hapart with
        ⟨t', hrun, hview, hstores⟩ | hfail
      · rw [List.nil_append, List.length_nil, Nat.sub_zero] at hstores
        have hheap : t'.OnHeap (List.replicate t.vs.s.len 0 ++ new) := by
          refine hstores.onHeap ?_
          rw [hview, List.length_append, List.length_replicate, hcount]
        have hzeros : (∀ b ∈ bytes, b = 0) ↔ List.replicate t.vs.s.len 0 = bytes := by
          rw [eq_comm, List.eq_replicate_iff, and_iff_right hlen]
        refine Or.inl ⟨t', hrun, ⟨fun hshows => ⟨hzero, hzeros.mpr ?_⟩, fun hkeeps => ?_⟩, fun hkeeps => ?_⟩
        · have hsame := Option.some.inj (hheap.view.symm.trans hshows.1)
          exact List.append_cancel_right hsame
        · rw [← hzeros.mp hkeeps.2]
          exact hheap.shows
        · rw [← hzeros.mp hkeeps.2]
          exact hheap
      · exact Or.inr hfail
  | appendC grant c =>
    simp only [VstrCall.run, VstrCall.appended, VstrCall.Keeps, hout, false_or]
    rcases appendC_cases (g := grant) (c := c) h.stores h.len with ⟨t', hrun, hview, hstores⟩ | hfail
    · have hheap : bytes = [] → t'.OnHeap (bytes ++ [c]) := by
        rintro rfl
        refine hstores.onHeap ?_
        rw [hview, ← hlen]
        rfl
      refine Or.inl ⟨t', hrun, ⟨fun hshows => ?_, fun hnil => (hheap hnil).shows⟩, hheap⟩
      have hstep := hshows.2.2
      have hsize : t'.vs.v.size = 1 := hstores.1.size
      rw [hview, hsize] at hstep
      exact List.length_eq_zero_iff.mp (hlen.trans (Nat.succ.inj hstep))
    · exact Or.inr hfail

/-- A call on either kind of string. -/
theorem VstrState.call_cases (h : t.OnHeap bytes ∨ t.Static bytes) (hallowed : c.Allowed t) :
    (∃ t', c.run t = (.ok (), t') ∧ (t'.Shows (bytes ++ c.appended t.heap) ↔ c.Keeps t bytes) ∧
        (c.Keeps t bytes → t'.OnHeap (bytes ++ c.appended t.heap))) ∨
      ∃ msg, c.run t = (err .general msg, t) := by
  by_cases hstep : t.vs.InStep
  · have hheap : t.OnHeap bytes := h.elim id fun hstatic => hstatic.null hstep
    rcases hheap.call hallowed with ⟨t', hrun, hnew⟩ | hfail
    · exact Or.inl ⟨t', hrun, ⟨fun _ => Or.inl hstep, fun _ => hnew.shows⟩, fun _ => hnew⟩
    · exact Or.inr hfail
  · exact (h.resolve_left fun hheap => hstep hheap.inStep).call hstep hallowed

theorem VstrState.OnHeap.other (h : t.OnHeap bytes) (hsame : ∀ a, t.vs.v.data = some a → heap a = t.heap a) :
    VstrState.OnHeap ⟨heap, t.vs⟩ bytes :=
  ⟨⟨h.stores.1.congr hsame, h.stores.2⟩, h.inStep⟩

theorem VstrState.Static.other (h : t.Static bytes)
    (hsame : ∀ a, t.vs.s.ptr.map Prod.fst = some a → heap a = t.heap a) : VstrState.Static ⟨heap, t.vs⟩ bytes where
  vec := h.vec
  view := by
    rw [← h.view]
    exact StrView.bytes_congr fun a off hptr => hsame a (by rw [hptr]; rfl)
  len := h.len

/-- The strings that calls lead to that lose nothing. -/
theorem VstrRun.backed (hrun : VstrRun (fun t bytes c => c.Keeps t bytes) t bytes) :
    t.OnHeap bytes ∨ t.Static bytes := by
  induction hrun with
  | static h => exact Or.inr h
  | onHeap h => exact Or.inl h
  | call _ hallowed hkeeps hok ih =>
    left
    rcases VstrState.call_cases ih hallowed with ⟨t1, hrun, -, hnew⟩ | ⟨msg, hfail⟩
    · rw [hok] at hrun
      cases hrun
      exact hnew hkeeps
    · rw [hok] at hfail
      cases hfail
  | other _ hsame ih =>
    rcases ih with hheap | hstatic
    · exact Or.inl (hheap.other fun a ha => hsame a (Or.inl ha))
    · exact Or.inr (hstatic.other fun a ha => hsame a (Or.inr ha))

/-- A call that succeeds appends if and only if the string is in the storage of its vector, or what is lost of the
static bytes is nothing or zeros. A call that does not succeed changes nothing. -/
theorem vstr_appends (t : VstrState) (bytes : List UInt8)
    (hrun : VstrRun (fun t bytes c => c.Keeps t bytes) t bytes) :
    t.vs.s.bytes t.heap = some bytes ∧ ∀ c : VstrCall, c.Allowed t →
      (∃ t', c.run t = (.ok (), t') ∧ (t'.Shows (bytes ++ c.appended t.heap) ↔ c.Keeps t bytes)) ∨
        ∃ msg, c.run t = (err .general msg, t) := by
  have hbacked := hrun.backed
  refine ⟨hbacked.elim (fun hheap => hheap.view) fun hstatic => hstatic.view, fun c hallowed => ?_⟩
  rcases VstrState.call_cases hbacked hallowed with ⟨t', hcall, hiff, -⟩ | hfail
  · exact Or.inl ⟨t', hcall, hiff⟩
  · exact Or.inr hfail

end Runs

/-! ### Runs on fixed inputs -/

/-- The buffers of two string literals. -/
def literals : Heap (List UInt8) := fun a => if a = 4096 then some [97] else if a = 8192 then some [98] else none

def appendB : VstrCall := .append (some ⟨12288, fun _ => 0⟩) ⟨some (8192, 0), 1⟩

theorem appendB_allowed (vs : Vstr) (h : vs.v = {}) : appendB.Allowed ⟨literals, vs⟩ := by
  have hread : StrView.bytes literals ⟨some (8192, 0), 1⟩ ≠ none := by decide
  refine ⟨by decide, hread, by decide, fun a off _ => ?_⟩
  rw [h]
  exact nofun

theorem vstr_appends_null :
    (VstrState.mk literals {}).vs.s.bytes literals = some [] ∧ ∀ c : VstrCall, c.Allowed ⟨literals, {}⟩ →
      (∃ t', c.run ⟨literals, {}⟩ = (.ok (), t') ∧ (t'.Shows (c.appended literals) ↔ c.Keeps ⟨literals, {}⟩ [])) ∨
        ∃ msg, c.run ⟨literals, {}⟩ = (err .general msg, ⟨literals, {}⟩) :=
  vstr_appends ⟨literals, {}⟩ [] (.static ⟨rfl, rfl, by decide⟩)

def staticA : VstrState := ⟨literals, { s := ⟨some (4096, 0), 1⟩ }⟩

/-- The bytes of a static string are not copied. -/
theorem static_bytes_lost :
    staticA.Static [97] ∧ appendB.Allowed staticA ∧ (appendB.run staticA).1 = .ok () ∧
      (appendB.run staticA).2.vs.s.bytes (appendB.run staticA).2.heap = some [0, 98] ∧
        ¬ (appendB.run staticA).2.Shows [97, 98] := by
  refine ⟨⟨rfl, rfl, by decide⟩, appendB_allowed _ rfl, rfl, rfl, fun hshows => ?_⟩
  exact absurd hshows.1 (by decide)

end Silverfir

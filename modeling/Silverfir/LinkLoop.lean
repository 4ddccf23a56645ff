import Silverfir.SlotIndices
import Mathlib.Order.Bounds.Basic

/-! The loop in `validator_on_decode_end` as it runs: two counters, one of them signed, over a table that it writes. It
does what `linkJumpTable` says. -/
namespace Silverfir.Validator

/-- `slot->next_idx = (u16)j`, for the slot `i`. -/
def setNextIdx (jt : List JumpTable) (i j : ℕ) : List JumpTable := jt.modify i ({ · with nextIdx := u16 j })

/-- `next_slot->pc > (slot->pc + slot->target_offset)`, for the slots `j` and `i`. -/
def liesAfter (jt : List JumpTable) (i j : ℕ) : Option Bool := do
  let slot ← jt[i]?
  let nextSlot ← jt[j]?
  some (nextSlot.pc > slotTarget slot)

/-- `for (u32 j = i + 1; j < vec_size_jump_table(jt); j++)`, for a number of rounds. -/
def forwardLoop (i : ℕ) : ℕ → ℕ → List JumpTable → Option (List JumpTable)
  | 0, _, _ => none
  | n + 1, j, jt =>
    if j < jt.length then do
      if ← liesAfter jt i j then some (setNextIdx jt i j) else forwardLoop i n (u32 (j + 1)) jt
    else some jt

/-- `for (i32 j = i; j >= 0; j--)` -/
def backwardLoop (i : ℕ) : ℕ → ℤ → List JumpTable → Option (List JumpTable)
  | 0, _, _ => none
  | n + 1, j, jt =>
    if j ≥ 0 then do
      if ← liesAfter jt i j.toNat then backwardLoop i n (j - 1) (setNextIdx jt i j.toNat) else some jt
    else some jt

/-- The search for the slot `i`. -/
def linkRound (i : ℕ) (jt : List JumpTable) : Option (List JumpTable) := do
  let slot ← jt[i]?
  if slot.targetOffset > 0 then forwardLoop i (jt.length + 1) (u32 (i + 1)) jt
  else backwardLoop i (jt.length + 1) (Int.bmod i (2 ^ 32)) jt

/-- `for (u32 i = 0; i < vec_size_jump_table(jt); i++)` -/
def linkRounds : ℕ → ℕ → List JumpTable → Option (List JumpTable)
  | 0, _, _ => none
  | n + 1, i, jt =>
    if i < jt.length then do
      let jt ← linkRound i jt
      linkRounds n (u32 (i + 1)) jt
    else some jt

/-- The loop, with a round for every slot and one to see that there are no more. -/
def linkLoop (jt : List JumpTable) : Option (List JumpTable) := linkRounds (jt.length + 1) 0 jt

/-! ### The inner loops -/

section Loops
variable {jt cur : List JumpTable} {slot : JumpTable} {i j k n : ℕ}

theorem length_setNextIdx : (setNextIdx jt i j).length = jt.length := List.length_modify _ _ _

theorem setNextIdx_pcs (jt : List JumpTable) (i j : ℕ) : (setNextIdx jt i j).map (·.pc) = jt.map (·.pc) := by
  refine List.ext_getElem? fun k => ?_
  rw [List.getElem?_map, setNextIdx, List.getElem?_modify, List.getElem?_map]
  cases jt[k]? with
  | none => rfl
  | some s => by_cases hik : i = k <;> simp [hik]

theorem getElem?_setNextIdx (h : jt[i]? = some slot) :
    (setNextIdx jt i j)[i]? = some { slot with nextIdx := u16 j } := by
  rw [setNextIdx, List.getElem?_modify, h]
  simp

theorem getElem?_setNextIdx_ne (h : k ≠ i) : (setNextIdx jt i j)[k]? = jt[k]? := by
  rw [setNextIdx, List.getElem?_modify_ne _ _ h.symm]

/-- The slot `i` has the next slot `next`, and the others are as they were. -/
structure Linked (jt cur : List JumpTable) (i next : ℕ) : Prop where
  length : cur.length = jt.length
  self : ∀ slot, jt[i]? = some slot → cur[i]? = some { slot with nextIdx := next }
  other : ∀ k, k ≠ i → cur[k]? = jt[k]?

theorem linked_set (h : jt[i]? = some slot) : Linked jt (setNextIdx jt i j) i (u16 j) where
  length := length_setNextIdx
  self s hs := by
    rw [h] at hs
    cases hs
    exact getElem?_setNextIdx h
  other _ hk := getElem?_setNextIdx_ne hk

theorem linked_refl (h : jt[i]? = some slot) : Linked jt jt i slot.nextIdx where
  length := rfl
  self s hs := by
    rw [h] at hs
    cases hs
    exact h
  other _ _ := rfl

theorem linked_trans (h : jt[i]? = some slot) (hset : Linked (setNextIdx jt i j) cur i k) : Linked jt cur i k where
  length := hset.length.trans length_setNextIdx
  self s hs := by
    rw [h] at hs
    cases hs
    exact hset.self { slot with nextIdx := u16 j } (getElem?_setNextIdx h)
  other _ hk := (hset.other _ hk).trans (getElem?_setNextIdx_ne hk)

/-- The forward loop ends, and its search is that of `linkForward`. -/
theorem forwardLoop_linked (h : jt[i]? = some slot) (hlen : jt.length < 2 ^ 31) (hj : j ≤ jt.length)
    (hn : jt.length < j + n) :
    ∃ cur, forwardLoop i n j jt = some cur ∧
      Linked jt cur i (linkForward (slotTarget slot) j (jt.drop j) slot.nextIdx) := by
  induction n generalizing j with
  | zero => omega
  | succ n ih =>
    unfold forwardLoop
    by_cases hlt : j < jt.length
    · have hnext : jt[j]? = some jt[j] := List.getElem?_eq_getElem hlt
      rw [if_pos hlt, List.drop_eq_getElem_cons hlt, linkForward]
      simp only [liesAfter, h, hnext, Option.bind_eq_bind, Option.bind_some, decide_eq_true_eq]
      by_cases hafter : jt[j].pc > slotTarget slot
      · rw [if_pos hafter, if_pos hafter]
        exact ⟨_, rfl, linked_set h⟩
      · rw [if_neg hafter, if_neg hafter, show u32 (j + 1) = j + 1 from Nat.mod_eq_of_lt (by omega)]
        exact ih (by omega) (by omega)
    · rw [if_neg hlt, List.drop_eq_nil_of_le (by omega), linkForward]
      exact ⟨jt, rfl, linked_refl h⟩

theorem linkBackward_pcs {jt' : List JumpTable} {target : ℕ} (h : jt'.map (·.pc) = jt.map (·.pc)) (next : ℕ) :
    linkBackward target j jt' next = linkBackward target j jt next := by
  rw [linkBackward_find, linkBackward_find, findBackward_pcs h]

/-- The backward loop ends, and its search is that of `linkBackward`. It reads the offsets of the table that it
writes, which stay. -/
theorem backwardLoop_linked (h : jt[i]? = some slot) (hj : j < jt.length) (hn : j + 1 < n) :
    ∃ cur, backwardLoop i n j jt = some cur ∧
      Linked jt cur i (linkBackward (slotTarget slot) j (jt.take (j + 1)).reverse slot.nextIdx) := by
  induction n generalizing j jt slot with
  | zero => omega
  | succ n ih =>
    have hnext : jt[j]? = some jt[j] := List.getElem?_eq_getElem hj
    unfold backwardLoop
    rw [if_pos (Int.natCast_nonneg j), List.take_succ_eq_append_getElem hj, List.reverse_append, List.reverse_singleton,
      List.singleton_append, linkBackward]
    simp only [liesAfter, h, hnext, Int.toNat_natCast, Option.bind_eq_bind, Option.bind_some, decide_eq_true_eq]
    by_cases hafter : jt[j].pc > slotTarget slot
    · rw [if_pos hafter, if_pos hafter]
      have hset := getElem?_setNextIdx (j := j) h
      cases j with
      | zero =>
        obtain ⟨m, rfl⟩ : ∃ m, n = m + 1 := ⟨n - 1, by omega⟩
        unfold backwardLoop
        rw [if_neg (by decide)]
        exact ⟨_, rfl, linked_set h⟩
      | succ j =>
        have hpred : ((j + 1 : ℕ) : ℤ) - 1 = (j : ℤ) := by omega
        rw [hpred]
        obtain ⟨cur, hloop, hlinked⟩ := ih (j := j) hset (by rw [length_setNextIdx]; omega) (by omega)
        refine ⟨cur, hloop, ?_⟩
        have hpcs : ((setNextIdx jt i (j + 1)).take (j + 1)).reverse.map (·.pc) =
            (jt.take (j + 1)).reverse.map (·.pc) := by
          rw [List.map_reverse, List.map_take, setNextIdx_pcs, List.map_reverse, List.map_take]
        rw [linkBackward_pcs hpcs] at hlinked
        exact linked_trans h hlinked
    · rw [if_neg hafter, if_neg hafter]
      exact ⟨jt, rfl, linked_refl h⟩

/-- The slots before `i` have their links, and the others are as they were. -/
def LinkedTo (jt cur : List JumpTable) (i : ℕ) : Prop :=
  ∀ k, cur[k]? = (jt[k]?).map fun slot => if k < i then linkSlot jt k slot else slot

theorem LinkedTo.pcs (h : LinkedTo jt cur i) : cur.map (·.pc) = jt.map (·.pc) := by
  refine List.ext_getElem? fun k => ?_
  rw [List.getElem?_map, List.getElem?_map, h k]
  cases jt[k]? with
  | none => rfl
  | some s => by_cases hk : k < i <;> simp [hk, linkSlot]

/-- A round of the outer loop. -/
theorem LinkedTo.round {cur' : List JumpTable} (h : LinkedTo jt cur i) (hslot : jt[i]? = some slot)
    (hlinked : Linked cur cur' i (linkSlot cur i slot).nextIdx) : LinkedTo jt cur' (i + 1) := by
  intro k
  have hself : cur[i]? = some slot := by
    rw [h i, hslot]
    simp
  by_cases hk : k = i
  · subst hk
    rw [hlinked.self slot hself, hslot, Option.map_some, if_pos (Nat.lt_succ_self k), linkSlot_find,
      linkIdx_pcs h.pcs rfl rfl, ← linkSlot_find]
    rfl
  · rw [hlinked.other k hk, h k]
    by_cases hlt : k < i
    · simp only [if_pos hlt, if_pos (Nat.lt_succ_of_lt hlt)]
    · simp only [if_neg hlt, if_neg (show ¬ k < i + 1 by omega)]

theorem linkRound_linked (hself : cur[i]? = some slot) (hlen : cur.length < 2 ^ 31) :
    ∃ cur', linkRound i cur = some cur' ∧ Linked cur cur' i (linkSlot cur i slot).nextIdx := by
  have hi := (List.getElem?_eq_some_iff.mp hself).1
  have hnext : u32 (i + 1) = i + 1 := Nat.mod_eq_of_lt (by omega)
  rw [linkRound, linkSlot, hself, Option.bind_eq_bind, Option.bind_some, hnext]
  by_cases hforward : slot.targetOffset > 0
  · simp only [if_pos hforward]
    exact forwardLoop_linked hself hlen hi (by omega)
  · rw [Int.bmod_eq_of_le (by omega) (by omega)]
    simp only [if_neg hforward]
    exact backwardLoop_linked hself hi (by omega)

/-- The outer loop ends with all slots linked. -/
theorem linkRounds_linked (h : LinkedTo jt cur i) (hlen : jt.length < 2 ^ 31) (hi : i ≤ jt.length)
    (hn : jt.length < i + n) : ∃ cur', linkRounds n i cur = some cur' ∧ LinkedTo jt cur' jt.length := by
  induction n generalizing i cur with
  | zero => omega
  | succ n ih =>
    have hsize : cur.length = jt.length := by
      have hpcs := congrArg List.length h.pcs
      rwa [List.length_map, List.length_map] at hpcs
    unfold linkRounds
    by_cases hlt : i < jt.length
    · have hslot : jt[i]? = some jt[i] := List.getElem?_eq_getElem hlt
      have hself : cur[i]? = some jt[i] := by
        rw [h i, hslot]
        simp
      obtain ⟨cur', hround, hlinked⟩ := linkRound_linked hself (hsize ▸ hlen)
      rw [if_pos (hsize ▸ hlt), hround, Option.bind_eq_bind, Option.bind_some,
        show u32 (i + 1) = i + 1 from Nat.mod_eq_of_lt (by omega)]
      exact ih (h.round hslot hlinked) (by omega) (by omega)
    · rw [if_neg (hsize ▸ hlt)]
      exact ⟨cur, rfl, (show i = jt.length by omega) ▸ h⟩

/-- The loop gives each slot the link that its search finds. -/
theorem linkLoop_eq (hlen : jt.length < 2 ^ 31) : linkLoop jt = some (linkJumpTable jt) := by
  have hstart : LinkedTo jt jt 0 := fun k => by simp
  obtain ⟨cur, hloop, hlinked⟩ :=
    linkRounds_linked hstart hlen (Nat.zero_le _) (by omega : jt.length < 0 + (jt.length + 1))
  rw [linkLoop, hloop]
  refine congrArg some (List.ext_getElem? fun k => ?_)
  rw [hlinked k, getElem?_linkJumpTable]
  cases hk : jt[k]? with
  | none => rfl
  | some slot =>
    have hlt := (List.getElem?_eq_some_iff.mp hk).1
    rw [Option.map_some, if_pos hlt, Option.map_some]

end Loops

/-! ### The links -/

section Links
variable {jt : List JumpTable} {slot : JumpTable} {target i j : ℕ}

/-- The indices of the slots that lie after a target. -/
def after (jt : List JumpTable) (target : ℤ) : Set ℕ := {j | ∃ s, jt[j]? = some s ∧ target < s.pc}

/-- In a table that is sorted, the first slot after a target splits it. -/
theorem splits_of_least (hsorted : jt.Pairwise fun s s' => s.pc ≤ s'.pc) (h : IsLeast (after jt target) j) :
    Splits jt target j where
  before k hk s hs := by
    by_contra hgt
    have hle := h.2 ⟨s, hs, by omega⟩
    omega
  after k hk s hs := by
    obtain ⟨⟨s', hs', hlt⟩, -⟩ := h
    obtain ⟨hj, rfl⟩ := List.getElem?_eq_some_iff.mp hs'
    obtain ⟨hk', rfl⟩ := List.getElem?_eq_some_iff.mp hs
    rcases Nat.eq_or_lt_of_le hk with rfl | hjk
    · omega
    · have hle := List.pairwise_iff_getElem.mp hsorted j k hj hk' hjk
      omega

/-- Without a slot after the target there is nothing to write. -/
theorem linkSlot_none (hslot : jt[i]? = some slot) (htarget : (slot.pc : ℤ) + slot.targetOffset = target)
    (hlt : target < 2 ^ 32) (h : after jt target = ∅) : (linkSlot jt i slot).nextIdx = slot.nextIdx := by
  have hbefore : ∀ s ∈ jt, ¬ s.pc > slotTarget slot := by
    intro s hs hgt
    obtain ⟨k, hk⟩ := List.mem_iff_getElem?.mp hs
    have hmem : k ∈ after jt target := by
      refine ⟨s, hk, ?_⟩
      rw [slotTarget, htarget] at hgt
      omega
    rw [h] at hmem
    exact hmem
  have hforward : ∀ k rest, (∀ s ∈ rest, s ∈ jt) →
      linkForward (slotTarget slot) k rest slot.nextIdx = slot.nextIdx := by
    intro k rest hrest
    induction rest generalizing k with
    | nil => rfl
    | cons s rest ih =>
      rw [linkForward, if_neg (hbefore s (hrest s List.mem_cons_self))]
      exact ih (k + 1) fun s' hs' => hrest s' (List.mem_cons_of_mem s hs')
  rw [linkSlot]
  simp only
  split
  · exact hforward _ _ fun s hs => List.mem_of_mem_drop hs
  · obtain ⟨hi, hself⟩ := List.getElem?_eq_some_iff.mp hslot
    rw [List.take_succ_eq_append_getElem hi, List.reverse_append, List.reverse_singleton, List.singleton_append,
      linkBackward, if_neg (hbefore _ (List.getElem_mem hi))]

/-- A slot that is not a jump stays. -/
theorem linkSlot_zero (hslot : jt[i]? = some slot) (hpc : slot.pc < 2 ^ 32) (hzero : slot.targetOffset = 0) :
    linkSlot jt i slot = slot := by
  obtain ⟨hi, hself⟩ := List.getElem?_eq_some_iff.mp hslot
  have htarget : slotTarget slot = slot.pc := by
    rw [slotTarget, hzero]
    omega
  have hnot : ¬ slot.targetOffset > 0 := by omega
  rw [linkSlot]
  simp only [if_neg hnot]
  rw [List.take_succ_eq_append_getElem hi, List.reverse_append, List.reverse_singleton, List.singleton_append,
    linkBackward, hself, htarget, if_neg (lt_irrefl _)]

/-- The loop links each jump to the first slot after its target. -/
theorem linkLoop_links (jt : List JumpTable) (hsorted : jt.Pairwise fun s s' => s.pc ≤ s'.pc)
    (hinit : ∀ s ∈ jt, s.nextIdx = jumpTableIdxInvalid) (hlen : jt.length < 2 ^ 31)
    (htargets : ∀ s ∈ jt, 0 ≤ (s.pc : ℤ) + s.targetOffset ∧ (s.pc : ℤ) + s.targetOffset < 2 ^ 31) :
    ∃ jt' : List JumpTable, linkLoop jt = some jt' ∧ jt'.length = jt.length ∧
      ∀ (i : ℕ) (slot : JumpTable), jt[i]? = some slot → ∃ next, jt'[i]? = some { slot with nextIdx := next } ∧
        (slot.targetOffset = 0 → next = slot.nextIdx) ∧
        (slot.targetOffset ≠ 0 →
          (∀ j, IsLeast (after jt (slot.pc + slot.targetOffset)) j → next = j % 2 ^ 16) ∧
          (after jt (slot.pc + slot.targetOffset) = ∅ → next = jumpTableIdxInvalid)) := by
  refine ⟨_, linkLoop_eq hlen, length_linkJumpTable jt, fun i slot hslot => ?_⟩
  have hmem := List.mem_of_getElem? hslot
  obtain ⟨hlow, hhigh⟩ := htargets slot hmem
  obtain ⟨target, htarget⟩ := Int.eq_ofNat_of_zero_le hlow
  have hlt : target < 2 ^ 32 := by omega
  refine ⟨(linkSlot jt i slot).nextIdx, ?_, fun hzero => ?_, fun hjump => ⟨fun j hleast => ?_, fun hnone => ?_⟩⟩
  · rw [getElem?_linkJumpTable, hslot]
    rfl
  · rw [linkSlot_zero hslot (by omega) hzero]
  · rw [htarget] at hleast
    obtain ⟨s, hs, -⟩ := hleast.1
    exact linkSlot_nextIdx hslot htarget hlt hjump (splits_of_least hsorted hleast) (List.getElem?_eq_some_iff.mp hs).1
  · rw [htarget] at hnone
    rw [linkSlot_none hslot htarget hlt hnone]
    exact hinit slot hmem

/-- A jump forward and one back. -/
theorem linkLoop_links_both :
    ∃ jt', linkLoop [⟨2, 6, 0, 0, jumpTableIdxInvalid⟩, ⟨9, -8, 0, 0, jumpTableIdxInvalid⟩] = some jt' ∧
      jt'.length = 2 ∧ ∃ next, jt'[0]? = some ⟨2, 6, 0, 0, next⟩ :=
  have ⟨jt', hloop, hlen, hslots⟩ :=
    linkLoop_links [⟨2, 6, 0, 0, jumpTableIdxInvalid⟩, ⟨9, -8, 0, 0, jumpTableIdxInvalid⟩]
    (by decide) (by decide) (by decide) (by decide)
  have ⟨next, hnext, _⟩ := hslots 0 _ rfl
  ⟨jt', hloop, hlen, next, hnext⟩

end Links

end Silverfir.Validator

import Silverfir.Lists
import Silverfir.Runtime

/-! What the doubly linked lists hold. A list of addresses with values says what is reached over `next` and over
`prev`, and each operation changes it as it should. -/
namespace Silverfir

open Heap (Node addrs first last Linked Visits)

/-- The list holds these items, each at its address. -/
structure ListState.Holds {α : Type} (s : ListState α) (items : List (ℕ × α)) : Prop where
  nodup : (addrs items).Nodup
  linked : Linked s.heap none items none
  head : s.list.head = first items none
  tail : s.list.tail = last items none
  size : s.list.size = items.length

/-- The items change, those that are no longer there are freed, and nothing else in the heap changes. -/
structure ListState.Becomes {α : Type} (s : ListState α) (items : List (ℕ × α)) (s' : ListState α)
    (items' : List (ℕ × α)) : Prop where
  holds : s'.Holds items'
  rest : ∀ b ∉ addrs items', s'.heap b = if b ∈ addrs items then none else s.heap b

section Steps
variable {α : Type} {s : ListState α} {heap : Heap (Node α)} {list : ListHeader} {items xs ys : List (ℕ × α)}
  {a b i : ℕ} {n : Node α} {f : Node α → Node α} {v x : α}
  {p p' q q' : Option ℕ}

open ListM Lists

theorem deref_apply (hn : heap a = some n) : deref (some a) ⟨heap, list⟩ = (.ok n, ⟨heap, list⟩) := by
  have hsome : (some a).bind heap = some n := hn
  simp only [deref, Eff.read, hsome]

theorem edit_apply (hn : heap a = some n) :
    edit (some a) f ⟨heap, list⟩ = (.ok (), ⟨heap.put a (f n), list⟩) := by
  simp only [edit, hn]

theorem freeItem_apply (hn : heap a = some n) :
    freeItem (some a) ⟨heap, list⟩ = (.ok (), ⟨heap.free a, list⟩) := by
  simp only [freeItem, hn]

theorem first_ne_none (b : ℕ × α) (rest : List (ℕ × α)) (q : Option ℕ) : first (b :: rest) q ≠ none := by
  simp [first]

theorem last_ne_none (b : ℕ × α) (rest : List (ℕ × α)) (p : Option ℕ) : last (b :: rest) p ≠ none := by
  induction rest generalizing b p with
  | nil => simp [last]
  | cons c rest ih => exact ih c (some b.1)

theorem ListState.Holds.isValid (h : s.Holds items) : s.list.IsValid := by
  rw [ListHeader.IsValid, h.head, h.tail, h.size]
  cases items with
  | nil => exact Or.inr ⟨rfl, rfl, rfl⟩
  | cons b rest => exact Or.inl ⟨by simp, first_ne_none b rest none, last_ne_none b rest none⟩

theorem ListState.Holds.assertValid (h : s.Holds items) : assertValid s = (.ok (), s) := by
  simp only [Lists.assertValid, Eff.bind_apply, header, if_pos h.isValid, Eff.pure_apply]

/-- A block that is not live is not among the items. -/
theorem ListState.Holds.not_mem (h : s.Holds items) (ha : s.heap a = none) : a ∉ addrs items := by
  intro hmem
  obtain ⟨⟨a', x⟩, hitem, rfl⟩ := List.mem_map.mp hmem
  obtain ⟨xs, ys, rfl⟩ := List.append_of_mem hitem
  have hself := (Heap.linked_append.mp h.linked).2.1
  simp only at ha
  rw [ha] at hself
  cases hself

/-! ### Links -/

/-- The link behind the last item is set. -/
theorem edit_last (list : ListHeader) (q' : Option ℕ) (hl : Linked heap none xs q) (hnodup : (addrs xs).Nodup)
    (hne : xs ≠ []) :
    ∃ heap', edit (last xs none) ({ · with next := q' }) ⟨heap, list⟩ = (.ok (), ⟨heap', list⟩) ∧
      Linked heap' none xs q' ∧ ∀ b ∉ addrs xs, heap' b = heap b := by
  obtain ⟨zs, ⟨t, x⟩, rfl⟩ := List.eq_nil_or_concat xs |>.resolve_left hne
  rw [List.concat_eq_append] at *
  obtain ⟨ht, hset⟩ := hl.setNext q' hnodup
  refine ⟨_, ?_, hset, fun b hb => Heap.put_ne ?_⟩
  · rw [Heap.last_concat]
    exact edit_apply ht
  · rintro rfl
    exact hb (by simp)

/-- The link before the first item is set. -/
theorem edit_first (list : ListHeader) (p' : Option ℕ) (hl : Linked heap p ys none) (hnodup : (addrs ys).Nodup)
    (hne : ys ≠ []) :
    ∃ heap', edit (first ys none) ({ · with prev := p' }) ⟨heap, list⟩ = (.ok (), ⟨heap', list⟩) ∧
      Linked heap' p' ys none ∧ ∀ b ∉ addrs ys, heap' b = heap b := by
  obtain ⟨⟨t, x⟩, zs, rfl⟩ := List.exists_cons_of_ne_nil hne
  obtain ⟨ht, hset⟩ := hl.setPrev p' hnodup
  refine ⟨_, edit_apply ht, hset, fun b hb => Heap.put_ne ?_⟩
  rintro rfl
  exact hb (by simp)

theorem deref_last (list : ListHeader) (hl : Linked heap none xs q) (hne : xs ≠ []) :
    ∃ n, deref (last xs none) ⟨heap, list⟩ = (.ok n, ⟨heap, list⟩) ∧ n.next = q := by
  obtain ⟨zs, ⟨t, x⟩, rfl⟩ := List.eq_nil_or_concat xs |>.resolve_left hne
  rw [List.concat_eq_append] at *
  obtain ⟨-, ht⟩ := Heap.linked_append.mp hl
  rw [Heap.last_concat]
  exact ⟨_, deref_apply (Heap.linked_singleton.mp ht), rfl⟩

theorem deref_first (list : ListHeader) (hl : Linked heap p ys none) (hne : ys ≠ []) :
    ∃ n, deref (first ys none) ⟨heap, list⟩ = (.ok n, ⟨heap, list⟩) ∧ n.prev = p := by
  obtain ⟨⟨t, x⟩, zs, rfl⟩ := List.exists_cons_of_ne_nil hne
  exact ⟨_, deref_apply hl.1, rfl⟩

/-- The link behind the last item is set, if there is one. -/
theorem edit_before (list : ListHeader) (q' : Option ℕ) (hl : Linked heap none xs q) (hnodup : (addrs xs).Nodup) :
    ∃ heap', editSome (last xs none) ({ · with next := q' }) ⟨heap, list⟩ =
        (.ok (), ⟨heap', list⟩) ∧
      Linked heap' none xs q' ∧ ∀ b ∉ addrs xs, heap' b = heap b := by
  cases xs with
  | nil =>
    exact ⟨heap, rfl, trivial, fun _ _ => rfl⟩
  | cons b rest =>
    rw [editSome, if_pos (last_ne_none b rest none)]
    exact edit_last list q' hl hnodup (List.cons_ne_nil b rest)

/-- The link before the first item is set, if there is one. -/
theorem edit_behind (list : ListHeader) (p' : Option ℕ) (hl : Linked heap p ys none) (hnodup : (addrs ys).Nodup) :
    ∃ heap', editSome (first ys none) ({ · with prev := p' }) ⟨heap, list⟩ =
        (.ok (), ⟨heap', list⟩) ∧
      Linked heap' p' ys none ∧ ∀ b ∉ addrs ys, heap' b = heap b := by
  cases ys with
  | nil =>
    exact ⟨heap, rfl, trivial, fun _ _ => rfl⟩
  | cons b rest =>
    rw [editSome, if_pos (first_ne_none b rest none)]
    exact edit_first list p' hl hnodup (List.cons_ne_nil b rest)

/-! ### The ends of the list -/

/-- A new item behind the last one. -/
theorem push_becomes (h : s.Holds items) (ha : s.heap a = none) :
    ∃ s', push (some a) v s = (.ok (), s') ∧ s.Becomes items s' (items ++ [(a, v)]) := by
  obtain ⟨heap, list⟩ := s
  have hnew := h.not_mem ha
  have hnodup : (addrs (items ++ [(a, v)])).Nodup := by
    rw [Heap.addrs_append, List.nodup_append]
    refine ⟨h.nodup, List.nodup_singleton a, fun c hc d hd => ?_⟩
    rw [List.mem_singleton.mp hd]
    rintro rfl
    exact hnew hc
  have hstay : Linked (heap.put a { data := v }) none items none :=
    h.linked.congr fun c hc => Heap.put_ne fun hca => hnew (hca ▸ hc)
  unfold push
  simp only [Eff.bind_apply, h.assertValid, newItem, header]
  cases items with
  | nil =>
    have hhead : list.head = none := h.head
    rw [if_pos hhead]
    refine ⟨_, rfl, ⟨hnodup, ⟨Heap.put_self, trivial⟩, rfl, rfl, congrArg (· + 1) h.size⟩, fun b hb => ?_⟩
    exact Heap.put_ne fun hba => hb (by simp [hba])
  | cons c rest =>
    have hhead : list.head ≠ none := by
      rw [h.head]
      exact first_ne_none c rest none
    have htail : list.tail = last (c :: rest) none := h.tail
    obtain ⟨heap1, hedit, hlinked, hsame⟩ := edit_last list (some a) hstay h.nodup
      (List.cons_ne_nil c rest)
    have hitem : heap1 a = some { data := v } := (hsame a hnew).trans Heap.put_self
    rw [if_neg hhead, htail]
    simp only [Eff.bind_apply, hedit, edit_apply hitem]
    refine ⟨_, rfl, ⟨hnodup, ?_, h.head, (Heap.last_concat _ (a, v) none).symm, ?_⟩, fun b hb => ?_⟩
    · refine Heap.linked_append.mpr ⟨?_, Heap.linked_singleton.mpr Heap.put_self⟩
      exact hlinked.congr fun d hd => Heap.put_ne fun hda => hnew (hda ▸ hd)
    · have hsize := h.size
      simp only at hsize
      simp only [hsize, List.length_append, List.length_singleton]
    · have hba : b ≠ a := fun hba => hb (by simp [hba])
      have hold : b ∉ addrs (c :: rest) := fun hmem => hb (by rw [Heap.addrs_append]; exact List.mem_append_left _ hmem)
      rw [if_neg hold]
      exact (Heap.put_ne hba).trans ((hsame b hold).trans (Heap.put_ne hba))

/-- A new item in front of the first one. -/
theorem pushFront_becomes (h : s.Holds items) (ha : s.heap a = none) :
    ∃ s', pushFront (some a) v s = (.ok (), s') ∧ s.Becomes items s' ((a, v) :: items) := by
  obtain ⟨heap, list⟩ := s
  have hnew := h.not_mem ha
  have hnodup : (addrs ((a, v) :: items)).Nodup := List.nodup_cons.mpr ⟨hnew, h.nodup⟩
  have hstay : Linked (heap.put a { data := v }) none items none :=
    h.linked.congr fun c hc => Heap.put_ne fun hca => hnew (hca ▸ hc)
  unfold pushFront
  simp only [Eff.bind_apply, h.assertValid, newItem, header]
  cases items with
  | nil =>
    have hhead : list.head = none := h.head
    rw [if_pos hhead]
    refine ⟨_, rfl, ⟨hnodup, ⟨Heap.put_self, trivial⟩, rfl, rfl, congrArg (· + 1) h.size⟩, fun b hb => ?_⟩
    exact Heap.put_ne fun hba => hb (by simp [hba])
  | cons c rest =>
    have hhead : list.head = first (c :: rest) none := h.head
    obtain ⟨heap1, hedit, hlinked, hsame⟩ := edit_first list (some a) hstay h.nodup
      (List.cons_ne_nil c rest)
    have hitem : heap1 a = some { data := v } := (hsame a hnew).trans Heap.put_self
    rw [if_neg (hhead ▸ first_ne_none c rest none), hhead]
    simp only [Eff.bind_apply, hedit, edit_apply hitem]
    refine ⟨_, rfl, ⟨hnodup, ⟨Heap.put_self, ?_⟩, rfl, ?_, congrArg (· + 1) h.size⟩, fun b hb => ?_⟩
    · exact hlinked.congr fun d hd => Heap.put_ne fun hda => hnew (hda ▸ hd)
    · exact h.tail
    · have hba : b ≠ a := List.ne_of_not_mem_cons hb
      have hold : b ∉ addrs (c :: rest) := List.not_mem_of_not_mem_cons hb
      rw [if_neg hold]
      exact (Heap.put_ne hba).trans ((hsame b hold).trans (Heap.put_ne hba))

/-- The item at `a` has been freed. -/
theorem rest_of_freed {heap' : Heap (Node α)} (hmem : ∀ b, b ∈ addrs items ↔ b = a ∨ b ∈ addrs xs)
    (hself : heap' a = none) (hsame : ∀ b ∉ addrs xs, b ≠ a → heap' b = heap b) :
    ∀ b ∉ addrs xs, heap' b = if b ∈ addrs items then none else heap b := by
  intro b hb
  by_cases hba : b = a
  · rw [if_pos ((hmem b).mpr (Or.inl hba)), hba, hself]
  · rw [if_neg fun h => ((hmem b).mp h).elim hba hb, hsame b hb hba]

/-- The last item goes. -/
theorem pop_becomes (h : s.Holds (xs ++ [(a, x)])) :
    ∃ s', pop s = (.ok (), s') ∧ s.Becomes (xs ++ [(a, x)]) s' xs := by
  obtain ⟨heap, list⟩ := s
  obtain ⟨hlinked, hlast⟩ := Heap.linked_append.mp h.linked
  have hitem := Heap.linked_singleton.mp hlast
  have htail : list.tail = some a := h.tail.trans (Heap.last_concat xs (a, x) none)
  have hsize : list.size = xs.length + 1 := h.size.trans (List.length_append ..)
  have hnodup := h.nodup
  rw [Heap.addrs_append, List.nodup_append] at hnodup
  have hout : a ∉ addrs xs := fun hmem => hnodup.2.2 a hmem a List.mem_cons_self rfl
  have hmem : ∀ b, b ∈ addrs (xs ++ [(a, x)]) ↔ b = a ∨ b ∈ addrs xs := fun b => by simp [or_comm]
  unfold pop
  simp only [Eff.bind_apply, h.assertValid, header]
  by_cases hxs : xs = []
  · subst hxs
    have hone : list.size = 1 := hsize
    rw [if_pos hone, htail]
    simp only [Eff.bind_apply, freeItem_apply hitem]
    exact ⟨_, rfl, ⟨List.nodup_nil, trivial, rfl, rfl, rfl⟩, rest_of_freed hmem Heap.free_self fun _ _ => Heap.free_ne⟩
  · have hne : list.size ≠ 1 := by
      have hpos := List.length_pos_iff.mpr hxs
      omega
    have hstay : Linked (heap.free a) none xs (some a) :=
      hlinked.congr fun c hc => Heap.free_ne fun hca => hout (hca ▸ hc)
    obtain ⟨n, hderef, hnext⟩ := deref_last list hlinked hxs
    obtain ⟨heap1, hedit, hlinked1, hsame⟩ := edit_last list none hstay hnodup.1 hxs
    rw [if_neg hne, htail]
    simp only [Eff.bind_apply, deref_apply hitem, hderef, hnext]
    rw [show first [(a, x)] none = some a from rfl]
    simp only [freeItem_apply hitem, hedit]
    refine ⟨_, rfl, ⟨hnodup.1, hlinked1, ?_, rfl, ?_⟩,
      rest_of_freed hmem ((hsame a hout).trans Heap.free_self) fun b hb hba => (hsame b hb).trans (Heap.free_ne hba)⟩
    · have hhead := h.head
      rw [Heap.first_append] at hhead
      obtain ⟨c, rest, rfl⟩ := List.exists_cons_of_ne_nil hxs
      exact hhead
    · simp only [hsize]
      rfl

/-- The first item goes. -/
theorem popFront_becomes (h : s.Holds ((a, x) :: ys)) :
    ∃ s', popFront s = (.ok (), s') ∧ s.Becomes ((a, x) :: ys) s' ys := by
  obtain ⟨heap, list⟩ := s
  obtain ⟨hitem, hlinked⟩ := h.linked
  have hhead : list.head = some a := h.head
  have hsize : list.size = ys.length + 1 := h.size
  obtain ⟨hout, hnodup⟩ := List.nodup_cons.mp h.nodup
  have hmem : ∀ b, b ∈ addrs ((a, x) :: ys) ↔ b = a ∨ b ∈ addrs ys := fun b => List.mem_cons
  unfold popFront
  simp only [Eff.bind_apply, h.assertValid, header]
  by_cases hys : ys = []
  · subst hys
    have hone : list.size = 1 := hsize
    rw [if_pos hone, hhead]
    simp only [Eff.bind_apply, freeItem_apply hitem]
    exact ⟨_, rfl, ⟨List.nodup_nil, trivial, rfl, rfl, rfl⟩, rest_of_freed hmem Heap.free_self fun _ _ => Heap.free_ne⟩
  · have hne : list.size ≠ 1 := by
      have hpos := List.length_pos_iff.mpr hys
      omega
    have hstay : Linked (heap.free a) (some a) ys none :=
      hlinked.congr fun c hc => Heap.free_ne fun hca => hout (hca ▸ hc)
    obtain ⟨n, hderef, hprev⟩ := deref_first list hlinked hys
    obtain ⟨heap1, hedit, hlinked1, hsame⟩ := edit_first list none hstay hnodup hys
    rw [if_neg hne, hhead]
    simp only [Eff.bind_apply, deref_apply hitem, hderef, hprev, freeItem_apply hitem, hedit]
    refine ⟨_, rfl, ⟨hnodup, hlinked1, rfl, ?_, ?_⟩,
      rest_of_freed hmem ((hsame a hout).trans Heap.free_self) fun b hb hba => (hsame b hb).trans (Heap.free_ne hba)⟩
    · obtain ⟨c, rest, rfl⟩ := List.exists_cons_of_ne_nil hys
      exact h.tail
    · simp only [hsize]
      rfl

/-! ### In the middle -/

/-- A new item in front of the one at `i`. -/
theorem insert_becomes (h : s.Holds (xs ++ (i, x) :: ys)) (ha : s.heap a = none) :
    ∃ s', Lists.insert i (some a) v s = (.ok a, s') ∧
      s.Becomes (xs ++ (i, x) :: ys) s' (xs ++ (a, v) :: (i, x) :: ys) := by
  obtain ⟨heap, list⟩ := s
  have hnew := h.not_mem ha
  have hnodup := h.nodup
  rw [Heap.addrs_append, List.nodup_append] at hnodup
  obtain ⟨hxs, hys, hdisj⟩ := hnodup
  have hnewx : a ∉ addrs xs := fun hmem => hnew (by rw [Heap.addrs_append]; exact List.mem_append_left _ hmem)
  have hnewy : a ∉ addrs ((i, x) :: ys) := fun hmem =>
    hnew (by rw [Heap.addrs_append]; exact List.mem_append_right _ hmem)
  have hia : i ≠ a := fun hia => hnewy (hia ▸ List.mem_cons_self)
  have hix : i ∉ addrs xs := fun hmem => hdisj i hmem i List.mem_cons_self rfl
  -- the heap with the new item, which has its links, and those of its neighbours
  have hwrapper : (heap.put a { data := v }) i = some ⟨last xs none, first ys none, x⟩ :=
    (Heap.put_ne hia).trans (Heap.linked_append.mp h.linked).2.1
  have hstay : Linked ((heap.put a { data := v }).put a ⟨last xs none, some i, v⟩) none (xs ++ (i, x) :: ys) none :=
    h.linked.congr fun c hc => by
      have hca : c ≠ a := fun hca => hnew (hca ▸ hc)
      exact (Heap.put_ne hca).trans (Heap.put_ne hca)
  obtain ⟨hbefore, hbehind⟩ := Heap.linked_append.mp hstay
  obtain ⟨heap1, hedit1, hlinked1, hsame1⟩ := edit_before list (some a) hbefore hxs
  have hbehind1 : Linked heap1 (last xs none) ((i, x) :: ys) none :=
    hbehind.congr fun c hc => hsame1 c fun hmem => hdisj c hmem c hc rfl
  obtain ⟨heap2, hedit2, hlinked2, hsame2⟩ := edit_first list (some a) hbehind1 hys
    (List.cons_ne_nil (i, x) ys)
  have hitem : heap2 a = some ⟨last xs none, some i, v⟩ :=
    (hsame2 a hnewy).trans ((hsame1 a hnewx).trans Heap.put_self)
  unfold Lists.insert
  simp only [Eff.bind_apply, newItem, deref_apply hwrapper, edit_apply Heap.put_self, hedit1]
  rw [show first ((i, x) :: ys) none = some i from rfl] at hedit2
  simp only [hedit2, header]
  refine ⟨_, rfl, ⟨?_, ?_, ?_, ?_, ?_⟩, fun b hb => ?_⟩
  · rw [Heap.addrs_append, List.nodup_append]
    refine ⟨hxs, List.nodup_cons.mpr ⟨hnewy, hys⟩, fun c hc d hd => ?_⟩
    rcases List.mem_cons.mp hd with rfl | hd
    · rintro rfl
      exact hnewx hc
    · exact hdisj c hc d hd
  · refine Heap.linked_append.mpr ⟨?_, hitem, hlinked2⟩
    exact hlinked1.congr fun c hc => hsame2 c fun hmem => hdisj c hc c hmem rfl
  · have hhead : list.head = first (xs ++ (i, x) :: ys) none := h.head
    simp only [hhead]
    cases xs with
    | nil => exact if_pos rfl
    | cons c rest =>
      have hci : c.1 ≠ i := fun hci => hix (hci ▸ List.mem_cons_self)
      exact if_neg fun heq => hci (Option.some.inj heq)
  · have htail : list.tail = last (xs ++ (i, x) :: ys) none := h.tail
    rw [Heap.last_append] at htail ⊢
    exact htail
  · have hsize : list.size = (xs ++ (i, x) :: ys).length := h.size
    simp only [hsize, List.length_append, List.length_cons]
    omega
  · have hba : b ≠ a := fun hba => hb (by simp [hba])
    have hbx : b ∉ addrs xs := fun hmem => hb (by simp [hmem])
    have hby : b ∉ addrs ((i, x) :: ys) := fun hmem => hb (by
      rw [Heap.addrs_append]
      exact List.mem_append_right _ (List.mem_cons_of_mem _ hmem))
    have hold : b ∉ addrs (xs ++ (i, x) :: ys) := by
      rw [Heap.addrs_append, List.mem_append, not_or]
      exact ⟨hbx, hby⟩
    rw [if_neg hold]
    refine (hsame2 b hby).trans ((hsame1 b hbx).trans ?_)
    exact (Heap.put_ne hba).trans (Heap.put_ne hba)

/-- The item at `i` goes. -/
theorem erase_becomes (h : s.Holds (xs ++ (i, x) :: ys)) :
    ∃ s', erase i s = (.ok (first ys none), s') ∧ s.Becomes (xs ++ (i, x) :: ys) s' (xs ++ ys) := by
  obtain ⟨heap, list⟩ := s
  have hnodup := h.nodup
  rw [Heap.addrs_append, List.nodup_append, Heap.addrs_cons, List.nodup_cons] at hnodup
  obtain ⟨hxs, ⟨hiy, hys⟩, hdisj⟩ := hnodup
  have hix : i ∉ addrs xs := fun hmem => hdisj i hmem i List.mem_cons_self rfl
  have hxy : ∀ c ∈ addrs xs, c ∉ addrs ys := fun c hc hmem => hdisj c hc c (List.mem_cons_of_mem _ hmem) rfl
  obtain ⟨hbefore, hitem, hbehind⟩ := Heap.linked_append.mp h.linked
  obtain ⟨heap1, hedit1, hlinked1, hsame1⟩ := edit_before list (first ys none) hbefore hxs
  have hbehind1 : Linked heap1 (some i) ys none := hbehind.congr fun c hc => hsame1 c fun hmem => hxy c hmem hc
  obtain ⟨heap2, hedit2, hlinked2, hsame2⟩ := edit_behind list (last xs none) hbehind1 hys
  have hitem2 : heap2 i = some ⟨last xs none, first ys none, x⟩ := (hsame2 i hiy).trans ((hsame1 i hix).trans hitem)
  have hhead : list.head = first (xs ++ (i, x) :: ys) none := h.head
  have htail : list.tail = last (xs ++ (i, x) :: ys) none := h.tail
  have hsize : list.size = (xs ++ (i, x) :: ys).length := h.size
  unfold erase
  simp only [Eff.bind_apply, deref_apply hitem, hedit1, hedit2, header, setHeader, Eff.modify, freeItem_apply hitem2]
  refine ⟨_, rfl, ⟨?_, ?_, ?_, ?_, ?_⟩, ?_⟩
  · rw [Heap.addrs_append, List.nodup_append]
    exact ⟨hxs, hys, fun c hc d hd hcd => hxy c hc (hcd ▸ hd)⟩
  · refine Heap.linked_append.mpr ⟨?_, ?_⟩
    · refine hlinked1.congr fun c hc => ?_
      have hci : c ≠ i := fun hci => hix (hci ▸ hc)
      exact (Heap.free_ne hci).trans (hsame2 c (hxy c hc))
    · refine hlinked2.congr fun c hc => ?_
      have hci : c ≠ i := fun hci => hiy (hci ▸ hc)
      exact Heap.free_ne hci
  · simp only [hhead]
    cases xs with
    | nil => exact if_pos rfl
    | cons c rest =>
      have hci : c.1 ≠ i := fun hci => hix (hci ▸ List.mem_cons_self)
      exact if_neg fun heq => hci (Option.some.inj heq)
  · simp only [htail, Heap.last_append]
    cases ys with
    | nil => exact if_pos rfl
    | cons c rest =>
      refine if_neg fun heq => hiy ?_
      have hlast : last rest (some c.1) = some i := heq
      rcases Heap.mem_of_last hlast with hmem | hc
      · exact List.mem_cons_of_mem _ hmem
      · rw [← Option.some.inj hc]
        exact List.mem_cons_self
  · simp only [hsize, List.length_append, List.length_cons]
    omega
  · refine rest_of_freed (fun b => by simp [or_left_comm]) Heap.free_self fun b hb hbi => ?_
    rw [Heap.addrs_append, List.mem_append, not_or] at hb
    exact (Heap.free_ne hbi).trans ((hsame2 b hb.2).trans (hsame1 b hb.1))

/-- The loop of `list_clear` ends, with all items freed. -/
theorem clearItems_ok (list : ListHeader) (hl : Linked heap p items none) (hnodup : (addrs items).Nodup)
    (hhead : list.head = first items none) :
    ∃ heap' list', clearItems items.length ⟨heap, list⟩ = (.ok (), ⟨heap', list'⟩) ∧
      ∀ b, heap' b = if b ∈ addrs items then none else heap b := by
  induction items generalizing p heap list with
  | nil =>
    have hnone : list.head = none := hhead
    refine ⟨heap, list, ?_, fun b => (if_neg List.not_mem_nil).symm⟩
    rw [List.length_nil, clearItems]
    simp only [Eff.bind_apply, header, if_pos hnone, Eff.pure_apply]
  | cons c rest ih =>
    obtain ⟨a, x⟩ := c
    obtain ⟨hitem, hrest⟩ := hl
    obtain ⟨hout, hnodup'⟩ : a ∉ addrs rest ∧ (addrs rest).Nodup := List.nodup_cons.mp hnodup
    have hsome : list.head = some a := hhead
    have hne : list.head ≠ none := by
      rw [hsome]
      exact Option.some_ne_none a
    have hstay : Linked (heap.free a) (some a) rest none :=
      hrest.congr fun b hb => Heap.free_ne fun hba => hout (hba ▸ hb)
    obtain ⟨heap', list', hloop, hfreed⟩ := ih { list with head := first rest none } hstay hnodup' rfl
    refine ⟨heap', list', ?_, fun b => ?_⟩
    · rw [List.length_cons, clearItems]
      simp only [Eff.bind_apply, header, if_neg hne]
      rw [hsome]
      simp only [deref_apply hitem, freeItem_apply hitem]
      exact hloop
    · rw [hfreed b]
      by_cases hba : b = a
      · subst hba
        rw [if_neg hout, if_pos (by simp)]
        exact Heap.free_self
      · have hiff : b ∈ addrs ((a, x) :: rest) ↔ b ∈ addrs rest := by simp [hba]
        rw [Heap.free_ne hba]
        simp only [hiff]

theorem clear_becomes (h : s.Holds items) : ∃ s', clear s = (.ok (), s') ∧ s.Becomes items s' [] := by
  obtain ⟨heap, list⟩ := s
  obtain ⟨heap', list', hloop, hfreed⟩ := clearItems_ok list h.linked h.nodup h.head
  have hsize : list.size = items.length := h.size
  unfold clear
  simp only [Eff.bind_apply, header, hsize, hloop]
  exact ⟨_, rfl, ⟨List.nodup_nil, trivial, rfl, rfl, rfl⟩, fun b _ => hfreed b⟩

end Steps

/-! ### Runs -/

/-- A call of one of the functions. What the allocator returns in it is `grant`. -/
inductive ListCall (α : Type) where
  | push (grant : Option ℕ) (v : α)
  | pushFront (grant : Option ℕ) (v : α)
  | pop
  | popFront
  | insert (i : ℕ) (grant : Option ℕ) (v : α)
  | erase (i : ℕ)
  | clear

namespace ListCall
variable {α : Type}

def grant : ListCall α → Option ℕ
  | push grant _ | pushFront grant _ | insert _ grant _ => grant
  | _ => none

/-- The call asks for an item. -/
def Allocates : ListCall α → Prop
  | push _ _ | pushFront _ _ | insert _ _ _ => True
  | _ => False

/-- The call, and the iterator it returns if it returns one. -/
def run : ListCall α → ListM α (Option ℕ)
  | push grant v => do
    Lists.push grant v
    pure none
  | pushFront grant v => do
    Lists.pushFront grant v
    pure none
  | pop => do
    Lists.pop
    pure none
  | popFront => do
    Lists.popFront
    pure none
  | insert i grant v => do
    let item ← Lists.insert i grant v
    pure (some item)
  | erase i => Lists.erase i
  | clear => do
    Lists.clear
    pure none

/-- What the call asks for: a new item is not where a live one is, a list that is popped is not empty, and an
iterator is that of an item of the list. -/
def Allowed (s : ListState α) (items : List (ℕ × α)) (c : ListCall α) : Prop :=
  (∀ a, c.grant = some a → s.heap a = none) ∧
    match c with
    | pop | popFront => items ≠ []
    | insert i _ _ | erase i => i ∈ addrs items
    | _ => True

/-- The call on the list of the items. -/
def apply (items : List (ℕ × α)) : ListCall α → List (ℕ × α)
  | push (some a) v => items ++ [(a, v)]
  | pushFront (some a) v => (a, v) :: items
  | insert i (some a) v => items.takeWhile (·.1 ≠ i) ++ (a, v) :: items.dropWhile (·.1 ≠ i)
  | push none _ | pushFront none _ | insert _ none _ => items
  | pop => items.dropLast
  | popFront => items.tail
  | erase i => items.takeWhile (·.1 ≠ i) ++ (items.dropWhile (·.1 ≠ i)).tail
  | clear => []

/-- The iterator that the call should return. -/
def returned (items : List (ℕ × α)) : ListCall α → Option ℕ
  | insert _ grant _ => grant
  | erase i => first (items.dropWhile (·.1 ≠ i)).tail none
  | _ => none

end ListCall

/-- What the list of the items says about the pointers. -/
structure ListState.Consistent {α : Type} (s : ListState α) (items : List (ℕ × α)) : Prop where
  forward : Visits s.heap Node.next s.list.head (addrs items)
  backward : Visits s.heap Node.prev s.list.tail (addrs items).reverse
  distinct : (addrs items).Nodup
  values : ∀ a x, (a, x) ∈ items → ∃ n, s.heap a = some n ∧ n.data = x
  size : s.list.size = items.length
  head : s.list.head = none ↔ items = []
  tail : s.list.tail = none ↔ items = []

/-- What calls lead to, from an empty list on. Between the calls the rest of the program does what it likes to the
other blocks of the heap. -/
inductive ListRun {α : Type} : ListState α → List (ℕ × α) → Prop
  | start (heap : Heap (Node α)) : ListRun ⟨heap, {}⟩ []
  | call {s items c} (hrun : ListRun s items) (hallowed : ListCall.Allowed s items c) :
      ListRun (c.run s).2 (c.apply items)
  | other {s items heap} (hrun : ListRun s items) (hsame : ∀ a ∈ addrs items, heap a = s.heap a) :
      ListRun ⟨heap, s.list⟩ items

section Runs
variable {α : Type} {s : ListState α} {items : List (ℕ × α)} {c : ListCall α} {i : ℕ}

theorem ListState.Holds.consistent (h : s.Holds items) : s.Consistent items where
  forward := h.head ▸ h.linked.forward
  backward := h.tail ▸ h.linked.backward
  distinct := h.nodup
  values := by
    intro a x hmem
    obtain ⟨xs, ys, rfl⟩ := List.append_of_mem hmem
    exact ⟨_, (Heap.linked_append.mp h.linked).2.1, rfl⟩
  size := h.size
  head := by
    rw [h.head]
    cases items with
    | nil => exact ⟨fun _ => rfl, fun _ => rfl⟩
    | cons b rest =>
      exact ⟨fun heq => absurd heq (first_ne_none b rest none), fun heq => absurd heq (List.cons_ne_nil _ _)⟩
  tail := by
    rw [h.tail]
    cases items with
    | nil => exact ⟨fun _ => rfl, fun _ => rfl⟩
    | cons b rest =>
      exact ⟨fun heq => absurd heq (last_ne_none b rest none), fun heq => absurd heq (List.cons_ne_nil _ _)⟩

/-- The place of an iterator. -/
theorem split_at (hmem : i ∈ addrs items) :
    ∃ x, items.dropWhile (·.1 ≠ i) = (i, x) :: (items.dropWhile (·.1 ≠ i)).tail ∧
      items = items.takeWhile (·.1 ≠ i) ++ (i, x) :: (items.dropWhile (·.1 ≠ i)).tail := by
  have hdrop : ∃ x, items.dropWhile (·.1 ≠ i) = (i, x) :: (items.dropWhile (·.1 ≠ i)).tail := by
    induction items with
    | nil => cases hmem
    | cons b rest ih =>
      obtain ⟨a, x⟩ := b
      by_cases hai : a = i
      · subst hai
        exact ⟨x, by simp⟩
      · have hrest : i ∈ addrs rest := (List.mem_cons.mp hmem).resolve_left fun h => hai h.symm
        rw [List.dropWhile_cons_of_pos (by simpa using hai)]
        exact ih hrest
  obtain ⟨x, hx⟩ := hdrop
  refine ⟨x, hx, ?_⟩
  rw [← hx, List.takeWhile_append_dropWhile]

/-- A call for which there is no item fails and changes nothing. -/
theorem run_refused (h : s.Holds items) (halloc : c.Allocates) (hgrant : c.grant = none) :
    c.run s = (err .general "list: out of memory", s) := by
  cases c with
  | push grant v | pushFront grant v =>
    obtain rfl : grant = none := hgrant
    simp only [ListCall.run, Lists.push, Lists.pushFront, Eff.bind_apply, h.assertValid, ListM.newItem]
    rfl
  | insert i grant v =>
    obtain rfl : grant = none := hgrant
    simp only [ListCall.run, Lists.insert, Eff.bind_apply, ListM.newItem]
    rfl
  | pop | popFront | erase | clear => exact absurd halloc id

/-- Every other call does what it does to the list of the items. -/
theorem run_becomes (h : s.Holds items) (hallowed : c.Allowed s items) (hserved : c.Allocates → c.grant ≠ none) :
    ∃ s', c.run s = (.ok (c.returned items), s') ∧ s.Becomes items s' (c.apply items) := by
  obtain ⟨hfresh, hallowed⟩ := hallowed
  cases c with
  | push grant v =>
    obtain ⟨a, rfl⟩ := Option.ne_none_iff_exists'.mp (hserved trivial)
    obtain ⟨s', hpush, hbecomes⟩ := push_becomes (v := v) h (hfresh a rfl)
    exact ⟨s', by simp only [ListCall.run, Eff.bind_apply, hpush]; rfl, hbecomes⟩
  | pushFront grant v =>
    obtain ⟨a, rfl⟩ := Option.ne_none_iff_exists'.mp (hserved trivial)
    obtain ⟨s', hpush, hbecomes⟩ := pushFront_becomes (v := v) h (hfresh a rfl)
    exact ⟨s', by simp only [ListCall.run, Eff.bind_apply, hpush]; rfl, hbecomes⟩
  | pop =>
    obtain ⟨xs, ⟨a, x⟩, rfl⟩ := (List.eq_nil_or_concat items).resolve_left hallowed
    rw [List.concat_eq_append] at *
    obtain ⟨s', hpop, hbecomes⟩ := pop_becomes h
    refine ⟨s', by simp only [ListCall.run, Eff.bind_apply, hpop]; rfl, ?_⟩
    rw [ListCall.apply, List.dropLast_concat]
    exact hbecomes
  | popFront =>
    obtain ⟨⟨a, x⟩, ys, rfl⟩ := List.exists_cons_of_ne_nil hallowed
    obtain ⟨s', hpop, hbecomes⟩ := popFront_becomes h
    exact ⟨s', by simp only [ListCall.run, Eff.bind_apply, hpop]; rfl, hbecomes⟩
  | insert i grant v =>
    obtain ⟨a, rfl⟩ := Option.ne_none_iff_exists'.mp (hserved trivial)
    obtain ⟨x, hdrop, hsplit⟩ := split_at hallowed
    rw [hsplit] at h
    obtain ⟨s', hinsert, hbecomes⟩ := insert_becomes (v := v) h (hfresh a rfl)
    rw [← hsplit, ← hdrop] at hbecomes
    exact ⟨s', by simp only [ListCall.run, Eff.bind_apply, hinsert]; rfl, hbecomes⟩
  | erase i =>
    obtain ⟨x, -, hsplit⟩ := split_at hallowed
    rw [hsplit] at h
    obtain ⟨s', herase, hbecomes⟩ := erase_becomes h
    rw [← hsplit] at hbecomes
    exact ⟨s', herase, hbecomes⟩
  | clear =>
    obtain ⟨s', hclear, hbecomes⟩ := clear_becomes h
    exact ⟨s', by simp only [ListCall.run, Eff.bind_apply, hclear]; rfl, hbecomes⟩

theorem apply_refused (halloc : c.Allocates) (hgrant : c.grant = none) : c.apply items = items := by
  cases c with
  | push grant v | pushFront grant v | insert i grant v =>
    obtain rfl : grant = none := hgrant
    rfl
  | pop | popFront | erase | clear => exact absurd halloc id

theorem ListRun.holds (hrun : ListRun s items) : s.Holds items := by
  induction hrun with
  | start heap => exact ⟨List.nodup_nil, trivial, rfl, rfl, rfl⟩
  | @call s items c _ hallowed ih =>
    by_cases hrefused : c.Allocates ∧ c.grant = none
    · rw [run_refused ih hrefused.1 hrefused.2, apply_refused hrefused.1 hrefused.2]
      exact ih
    · obtain ⟨s', hcall, hbecomes⟩ := run_becomes ih hallowed fun halloc hgrant => hrefused ⟨halloc, hgrant⟩
      rw [hcall]
      exact hbecomes.holds
  | other _ hsame ih => exact ⟨ih.nodup, ih.linked.congr hsame, ih.head, ih.tail, ih.size⟩

/-- In every run the pointers, the count and the values are those of the list of items, every call does to it what it
does to a list, and the items that stay are where they were. -/
theorem list_representation (hrun : ListRun s items) : s.Consistent items ∧ ∀ c : ListCall α, c.Allowed s items →
    (c.Allocates ∧ c.grant = none → c.run s = (err .general "list: out of memory", s)) ∧
    (¬ (c.Allocates ∧ c.grant = none) → ∃ s', c.run s = (.ok (c.returned items), s') ∧
      s'.Consistent (c.apply items) ∧
      ∀ b ∉ addrs (c.apply items), s'.heap b = if b ∈ addrs items then none else s.heap b) := by
  have hholds := hrun.holds
  refine ⟨hholds.consistent, fun c hallowed => ⟨fun h => run_refused hholds h.1 h.2, fun h => ?_⟩⟩
  obtain ⟨s', hcall, hbecomes⟩ := run_becomes hholds hallowed fun halloc hgrant => h ⟨halloc, hgrant⟩
  exact ⟨s', hcall, hbecomes.holds.consistent, hbecomes.rest⟩

theorem list_representation_pushed : ∃ s : ListState ℕ, ListRun s [(8, 5)] ∧ s.Consistent [(8, 5)] ∧
    ∃ s', (ListCall.insert 8 (some 9) 6).run s = (.ok (some 9), s') ∧ s'.Consistent [(9, 6), (8, 5)] := by
  have hrun := ListRun.call (c := .push (some 8) 5) (ListRun.start (fun _ => none))
    ⟨fun _ _ => rfl, trivial⟩
  obtain ⟨hconsistent, hcalls⟩ := list_representation hrun
  refine ⟨_, hrun, hconsistent, ?_⟩
  obtain ⟨-, hinsert⟩ := hcalls (.insert 8 (some 9) 6) ⟨fun a ha => by cases ha; rfl, by decide⟩
  obtain ⟨s', hcall, hconsistent', -⟩ := hinsert (by rintro ⟨-, h⟩; cases h)
  exact ⟨s', hcall, hconsistent'⟩

end Runs

/-! ### The lists of the runtime -/

section Values
variable {α : Type} {s : ListState α} {items xs ys : List (ℕ × α)} {i : ℕ} {x v : α}

def values (items : List (ℕ × α)) : List α := items.map Prod.snd

/-- What the runtime does when it pushes a module or a VM is what happens to the values. -/
theorem push_values (h : s.Holds items) {alloc : Alloc} {grant : Option ℕ} (halloc : alloc.listPush = grant.isNone)
    (hfresh : ∀ a, grant = some a → s.heap a = none) :
    (∃ s' items', Lists.push grant v s = (.ok (), s') ∧ s'.Holds items' ∧
      listPush alloc (values items) v = .ok (values items')) ∨
    ∃ e, Lists.push grant v s = (.error e, s) ∧ listPush alloc (values items) v = .error e := by
  cases grant with
  | none =>
    right
    rw [listPush, halloc, Option.isNone_none, if_pos rfl]
    refine ⟨_, ?_, rfl⟩
    simp only [Lists.push, Eff.bind_apply, h.assertValid, ListM.newItem]
    rfl
  | some a =>
    left
    obtain ⟨s', hpush, hbecomes⟩ := push_becomes (v := v) h (hfresh a rfl)
    refine ⟨s', _, hpush, hbecomes.holds, ?_⟩
    rw [listPush, halloc, Option.isNone_some, if_neg (by decide), values, values, List.map_append]
    rfl

/-- What the runtime does when it drops the module or the VM that it has found. -/
theorem erase_values (h : s.Holds (xs ++ (i, x) :: ys)) {p : α → Bool} (hx : p x = true)
    (hbefore : ∀ y ∈ values xs, p y = false) :
    ∃ s' items', Lists.erase i s = (.ok (first ys none), s') ∧ s'.Holds items' ∧
      values items' = (values (xs ++ (i, x) :: ys)).eraseP p := by
  obtain ⟨s', herase, hbecomes⟩ := erase_becomes h
  refine ⟨s', _, herase, hbecomes.holds, ?_⟩
  rw [values, values, List.map_append, List.map_append, List.eraseP_append_right]
  · rw [List.map_cons, List.eraseP_cons_of_pos hx]
  · intro y hy
    rw [hbefore y hy]
    decide

end Values

end Silverfir

import Silverfir.SjsonNumbers

/-! What `json_parse` accepts, against the grammar. -/
namespace Silverfir

open Grammar
open Json (Ws Chars Literal Member Group Value Text)

namespace Sjson

section Leaves
variable {st st' : Stream} {b : UInt8} {rest raw : Str}

/-! ### Whitespace -/

theorem eatWsLoop_eq {n : ℕ} (hn : (Cursor.left st).length ≤ n) :
    eatWsLoop n st = st.advance ((Cursor.left st).takeWhile Json.isWs).length := by
  induction n generalizing st with
  | zero =>
    have hnil : Cursor.left st = [] := List.eq_nil_of_length_eq_zero (by omega)
    rw [hnil]
    rfl
  | succ n ih =>
    rw [eatWsLoop]
    cases hleft : Cursor.left st with
    | nil =>
      rw [byteAt?_nil hleft]
      rfl
    | cons b w =>
      have hnext := left_advance_one hleft
      rw [byteAt?_of_left hleft]
      dsimp only
      rw [List.takeWhile_cons]
      split
      · next hws =>
        rw [hleft, List.length_cons] at hn
        rw [ih (by rw [hnext]; omega), hnext, if_pos (show Json.isWs b = true from hws), List.length_cons, Nat.add_comm]
        exact Cursor.advance_advance st 1 _
      · next hws =>
        rw [if_neg (show ¬ Json.isWs b = true from hws)]
        rfl

/-- Whitespace is skipped. -/
theorem eatWs_ok (st : Stream) : ∃ l, Ws l ∧ Cursor.left st = l ++ Cursor.left (eatWs st) := by
  refine ⟨(Cursor.left st).takeWhile Json.isWs, takeWhile_all _ _, ?_⟩
  rw [eatWs, eatWsLoop_eq (by rw [remaining_eq])]
  exact left_takeWhile Json.isWs st

/-- All of it, up to something else. -/
theorem eatWs_left {l : Str} (hl : Ws l) (hleft : Cursor.left st = l ++ rest) (hrest : Stops Json.isWs rest) :
    Cursor.left (eatWs st) = rest := by
  rw [eatWs, eatWsLoop_eq (by rw [remaining_eq]), hleft, takeWhile_stops hl hrest]
  exact left_behind hleft

/-! ### Strings -/

theorem isHex_toNat (b : UInt8) : isHex b.toNat = Json.isHex b := rfl

theorem advance_add (st : Stream) (m n : ℕ) : (st.advance m).advance n = st.advance (m + n) :=
  Cursor.advance_advance st m n

theorem parseHex_ok {n : ℕ} (h : parseHex n st = .ok st') :
    ∃ hs : Str, hs.length = n ∧ (∀ x ∈ hs, Json.isHex x = true) ∧ Cursor.left st = hs ++ Cursor.left st' ∧
      st' = st.advance n := by
  induction n generalizing st with
  | zero =>
    cases h
    exact ⟨[], rfl, by simp, rfl, rfl⟩
  | succ n ih =>
    obtain ⟨⟨x, st1⟩, hread, h⟩ := bind_eq_ok.mp h
    obtain ⟨b, w, hleft, rfl, rfl⟩ := readU8_some hread
    dsimp only at h
    split at h
    · next hx =>
      obtain ⟨hs, hlen, hall, hsplit, rfl⟩ := ih h
      refine ⟨b :: hs, by rw [List.length_cons, hlen], ?_, ?_, ?_⟩
      · intro y hy
        rcases List.mem_cons.mp hy with rfl | hy
        · exact hx
        · exact hall y hy
      · rw [hleft, ← left_advance_one hleft, hsplit]
        rfl
      · rw [advance_add, Nat.add_comm]
    · simp [invalid] at h

theorem parseHex_word {hs : Str} (hall : ∀ x ∈ hs, Json.isHex x = true) (hleft : Cursor.left st = hs ++ rest) :
    parseHex hs.length st = .ok (st.advance hs.length) := by
  induction hs generalizing st with
  | nil => rfl
  | cons x hs ih =>
    have hx := hall x List.mem_cons_self
    rw [List.length_cons, parseHex, readU8_cons hleft, ok_bind]
    dsimp only
    rw [isHex_toNat, hx, if_pos rfl, ih (fun y hy => hall y (List.mem_cons_of_mem _ hy)) (left_advance_one hleft),
      advance_add, Nat.add_comm]

theorem escape_iff {b : UInt8} : (b.toNat = 0x5C ∨ b.toNat = 0x22 ∨ b.toNat = 0x2F ∨ b.toNat = 0x62 ∨ b.toNat = 0x66 ∨
    b.toNat = 0x6E ∨ b.toNat = 0x72 ∨ b.toNat = 0x74) ↔ Json.isEscape b = true := by
  simp only [Json.isEscape, Bool.or_eq_true, decide_eq_true_eq, or_assoc]

theorem eq_of_toNat {b : UInt8} {n : ℕ} (hn : n < 256) (h : b.toNat = n) : b = UInt8.ofNat n := by
  rw [← UInt8.toNat_inj, UInt8.toNat_ofNat', h, Nat.mod_eq_of_lt hn]

/-- What an escape is, behind its backslash. -/
theorem parseEscape_ok (h : parseEscape st = .ok st') : ∃ e, Cursor.left st = e ++ Cursor.left st' ∧
    st' = st.advance e.length ∧ ∀ w, Chars w → Chars (0x5C :: (e ++ w)) := by
  obtain ⟨⟨c, st1⟩, hread, h⟩ := bind_eq_ok.mp h
  obtain ⟨b, w, hleft, rfl, rfl⟩ := readU8_some hread
  have hnext := left_advance_one hleft
  dsimp only at h
  split at h
  · next he =>
    cases h
    exact ⟨[b], by rw [hleft, hnext]; rfl, rfl, fun v hv => .escape (escape_iff.mp he) hv⟩
  · split at h
    · next hu =>
      obtain ⟨hs, hlen, hall, hsplit, rfl⟩ := parseHex_ok h
      obtain rfl : b = 0x75 := eq_of_toNat (by decide) hu
      refine ⟨0x75 :: hs, by rw [hleft, ← hnext, hsplit]; rfl, ?_, fun v hv => ?_⟩
      · rw [advance_add, List.length_cons, hlen]
      · match hs, hlen with
        | [a, b, c, d], _ =>
          exact .unicode (hall a (by simp)) (hall b (by simp)) (hall c (by simp)) (hall d (by simp)) hv
    · simp [invalid] at h

/-- The bytes of one pass of the loop, from `b` on. -/
theorem skipEscape_ok (hb : b ≠ 0x22) (hlow : 0x20 ≤ b.toNat) (h : skipEscape b.toNat st = .ok st') :
    ∃ e, Cursor.left st = e ++ Cursor.left st' ∧ st' = st.advance e.length ∧ ∀ w, Chars w → Chars (b :: (e ++ w)) := by
  rw [skipEscape] at h
  split at h
  · next hback =>
    obtain rfl : b = 0x5C := eq_of_toNat (by decide) hback
    exact parseEscape_ok h
  · next hback =>
    cases h
    refine ⟨[], rfl, rfl, fun w hw => .plain hlow hb ?_ hw⟩
    rintro rfl
    exact hback rfl

theorem stringLoop_ok {n : ℕ} (h : stringLoop n st = .ok st') :
    ∃ raw, Chars raw ∧ Cursor.left st = raw ++ (0x22 :: Cursor.left st') ∧ st' = st.advance (raw.length + 1) := by
  induction n generalizing st with
  | zero => simp [stringLoop] at h
  | succ n ih =>
    obtain ⟨⟨c, st1⟩, hread, h⟩ := bind_eq_ok.mp h
    obtain ⟨b, w, hleft, rfl, rfl⟩ := readU8_some hread
    have hnext := left_advance_one hleft
    dsimp only at h
    split at h
    · next hquote =>
      cases h
      obtain rfl : b = 0x22 := eq_of_toNat (by decide) hquote
      exact ⟨[], .nil, by rw [hleft, hnext]; rfl, rfl⟩
    · next hquote =>
      obtain ⟨st2, hesc, h⟩ := bind_eq_ok.mp h
      split at h
      · simp [invalid] at h
      · next hlow =>
        have hb : b ≠ 0x22 := by
          rintro rfl
          exact hquote rfl
        obtain ⟨e, hsplit, rfl, hchars⟩ := skipEscape_ok hb (by omega) hesc
        obtain ⟨raw, hraw, hrest, rfl⟩ := ih h
        refine ⟨b :: (e ++ raw), hchars raw hraw, ?_, ?_⟩
        · rw [hleft, ← hnext, hsplit, hrest]
          simp
        · rw [advance_add, advance_add, List.length_cons, List.length_append]
          congr 1
          omega

theorem stringLoop_word (hraw : Chars raw) {n : ℕ} (hn : raw.length < n)
    (hleft : Cursor.left st = raw ++ (0x22 :: rest)) : stringLoop n st = .ok (st.advance (raw.length + 1)) := by
  induction hraw generalizing n st with
  | nil =>
    obtain ⟨n, rfl⟩ : ∃ k, n = k + 1 := ⟨n - 1, by rw [List.length_nil] at hn; omega⟩
    rw [stringLoop, readU8_cons hleft]
    rfl
  | @plain c w hc hq hb tail ih =>
    obtain ⟨n, rfl⟩ : ∃ k, n = k + 1 := ⟨n - 1, by omega⟩
    rw [List.length_cons] at hn ⊢
    have hquote : ¬ c.toNat = 0x22 := fun heq => hq (eq_of_toNat (by decide) heq)
    have hback : ¬ c.toNat = 0x5C := fun heq => hb (eq_of_toNat (by decide) heq)
    rw [stringLoop, readU8_cons hleft, ok_bind]
    dsimp only
    rw [if_neg hquote, skipEscape, if_neg hback, ok_bind, if_neg (by omega), ih (by omega) (left_advance_one hleft),
      advance_add]
    congr 2
    omega
  | @escape c w hc tail ih =>
    obtain ⟨n, rfl⟩ : ∃ k, n = k + 1 := ⟨n - 1, by omega⟩
    rw [List.length_cons, List.length_cons] at hn ⊢
    have hnext := left_advance_one hleft
    have hesc : parseEscape (st.advance 1) = .ok ((st.advance 1).advance 1) := by
      rw [parseEscape, readU8_cons hnext, ok_bind]
      dsimp only
      rw [if_pos (escape_iff.mpr hc)]
    rw [stringLoop, readU8_cons hleft, ok_bind]
    dsimp only
    rw [if_neg (by decide), skipEscape, if_pos (by decide), hesc, ok_bind, if_neg (by decide),
      ih (by omega) (left_advance_one hnext), advance_add, advance_add]
    congr 2
    omega
  | @unicode a b c d w ha hb hc hd tail ih =>
    obtain ⟨n, rfl⟩ : ∃ k, n = k + 1 := ⟨n - 1, by omega⟩
    simp only [List.length_cons] at hn ⊢
    have hnext := left_advance_one hleft
    have hhex : parseHex 4 ((st.advance 1).advance 1) = .ok (((st.advance 1).advance 1).advance 4) :=
      @parseHex_word _ (w ++ (0x22 :: rest)) [a, b, c, d] (by simp [ha, hb, hc, hd]) (left_advance_one hnext)
    have hesc : parseEscape (st.advance 1) = .ok (((st.advance 1).advance 1).advance 4) := by
      rw [parseEscape, readU8_cons hnext, ok_bind]
      dsimp only
      rw [if_neg (by decide), if_pos (by decide), hhex]
    have hbehind : Cursor.left (((st.advance 1).advance 1).advance 4) = w ++ (0x22 :: rest) :=
      left_behind (w := [a, b, c, d]) (left_advance_one hnext)
    rw [stringLoop, readU8_cons hleft, ok_bind]
    dsimp only
    rw [if_neg (by decide), skipEscape, if_pos (by decide), hesc, ok_bind, if_neg (by decide), ih (by omega) hbehind]
    simp only [advance_add]
    congr 2
    omega

/-- What `json_parse_string` cuts out. -/
theorem slice_raw (hleft : Cursor.left st = raw ++ rest) :
    (if (st.advance (raw.length + 1)).p ≠ st.p + 1 then
      (((st.advance (raw.length + 1)).s.drop st.p).take ((st.advance (raw.length + 1)).p - st.p - 1))
        else []) = raw := by
  have hp : (st.advance (raw.length + 1)).p = st.p + (raw.length + 1) := rfl
  have hs : (st.advance (raw.length + 1)).s.drop st.p = raw ++ rest := by
    rw [← hleft, left_eq]
    rfl
  split
  · rw [hp, hs, Nat.add_sub_cancel_left, Nat.add_sub_cancel, List.take_left]
  · next hempty =>
    rw [hp] at hempty
    have hzero : raw.length = 0 := by omega
    exact (List.eq_nil_of_length_eq_zero hzero).symm

theorem parseString_ok (h : parseString st = .ok (raw, st')) :
    ∃ l, Ws l ∧ Chars raw ∧ Cursor.left st = l ++ (0x22 :: (raw ++ (0x22 :: Cursor.left st'))) := by
  obtain ⟨⟨c, st1⟩, hread, h⟩ := bind_eq_ok.mp h
  obtain ⟨b, w, hleft, rfl, rfl⟩ := readU8_some hread
  obtain ⟨l, hl, hws⟩ := eatWs_ok st
  have hnext := left_advance_one hleft
  dsimp only at h
  split at h
  · simp [invalid] at h
  · next hquote =>
    obtain rfl : b = 0x22 := eq_of_toNat (by decide) (not_not.mp hquote)
    obtain ⟨st2, hloop, h⟩ := bind_eq_ok.mp h
    obtain ⟨raw', hraw, hsplit, rfl⟩ := stringLoop_ok hloop
    rw [slice_raw hsplit] at h
    cases h
    exact ⟨l, hl, hraw, by rw [hws, hleft, ← hnext, hsplit]⟩

theorem parseString_word {l : Str} (hl : Ws l) (hraw : Chars raw)
    (hleft : Cursor.left st = l ++ (0x22 :: (raw ++ (0x22 :: rest)))) :
    ∃ st', parseString st = .ok (raw, st') ∧ Cursor.left st' = rest := by
  have hquote := eatWs_left hl hleft (by rintro _ ⟨⟩; rfl)
  have hnext := left_advance_one hquote
  have hlong : raw.length < ((eatWs st).advance 1).remaining + 1 := by
    rw [remaining_eq, hnext, List.length_append]
    omega
  refine ⟨((eatWs st).advance 1).advance (raw.length + 1), ?_, ?_⟩
  · rw [parseString, readU8_cons hquote, ok_bind]
    dsimp only
    rw [if_neg (by decide), stringLoop_word hraw hlong hnext, ok_bind, slice_raw hnext]
  · rw [← advance_add]
    exact left_advance_one (left_behind hnext)

end Leaves

/-! ### Groups -/

/-- What the parser takes is whitespace and a word of the result. -/
def Sound {α : Type} (E : α → Str → Prop) (p : Stream → R (α × Stream)) : Prop :=
  ∀ st x st', p st = .ok (x, st') → ∃ l w, Ws l ∧ E x w ∧ Cursor.left st = l ++ (w ++ Cursor.left st')

/-- The parser takes every word of at most `k` bytes, where it is over behind it. -/
def Complete {α : Type} (E : α → Str → Prop) (k : ℕ) (p : Stream → R (α × Stream)) : Prop :=
  ∀ x w st rest, w.length ≤ k → E x w → Cursor.left st = w ++ rest → Follows rest →
    ∃ st', p st = .ok (x, st') ∧ Cursor.left st' = rest

section Groups
variable {α : Type} {E : α → Str → Prop} {item : Stream → R (α × Stream)} {opening closing : UInt8} {st st' : Stream}
  {rest : Str} {k : ℕ}

theorem groupLoop_ok (hitem : Sound E item) {n : ℕ} {xs ys : List α}
    (h : groupLoop closing.toNat item n xs st = .ok (ys, st')) :
    ∃ zs ws, ys = xs ++ zs ∧ Json.Items E zs ws ∧ Cursor.left st = ws ++ (closing :: Cursor.left st') := by
  induction n generalizing xs st with
  | zero => simp [groupLoop] at h
  | succ n ih =>
    obtain ⟨⟨x, st1⟩, hx, h⟩ := bind_eq_ok.mp h
    obtain ⟨⟨d, st2⟩, hread, h⟩ := bind_eq_ok.mp h
    obtain ⟨l0, hl0, hws0⟩ := eatWs_ok st
    obtain ⟨l, w, hl, hw, hsplit⟩ := hitem _ _ _ hx
    obtain ⟨r, hr, hws1⟩ := eatWs_ok st1
    obtain ⟨b, v, hleft, rfl, rfl⟩ := readU8_some hread
    have hnext := left_advance_one hleft
    have hall : Cursor.left st = l0 ++ l ++ (w ++ (r ++ (b :: v))) := by
      rw [hws0, hsplit, hws1, hleft, List.append_assoc]
    dsimp only at h
    split at h
    · next hcomma =>
      obtain rfl : b = 0x2C := eq_of_toNat (by decide) hcomma
      obtain ⟨zs, ws, rfl, hitems, hrest⟩ := ih h
      refine ⟨x :: zs, _, by rw [List.append_assoc, List.singleton_append], .cons (hl0.append hl) hw hr hitems, ?_⟩
      rw [hall, ← hnext, hrest]
      simp only [List.append_assoc, List.cons_append]
    · split at h
      · next hclosing =>
        cases h
        obtain rfl : b = closing := UInt8.toNat_inj.mp hclosing
        refine ⟨[x], _, rfl, .one (hl0.append hl) hw hr, ?_⟩
        rw [hall, hnext]
        simp only [List.append_assoc]
      · simp [invalid] at h

theorem parseGroup_ok (hitem : Sound E item) : Sound (Group opening closing E)
    (parseGroup opening.toNat closing.toNat item) := by
  intro st xs st' h
  obtain ⟨⟨c, st1⟩, hread, h⟩ := bind_eq_ok.mp h
  obtain ⟨b, w, hleft, rfl, rfl⟩ := readU8_some hread
  obtain ⟨l, hl, hws⟩ := eatWs_ok st
  have hnext := left_advance_one hleft
  obtain ⟨r, hr, hws1⟩ := eatWs_ok ((eatWs st).advance 1)
  dsimp only at h
  split at h
  · simp [invalid] at h
  · next hopening =>
    rw [UInt8.toNat_inj.mp (not_not.mp hopening)] at hleft
    obtain ⟨d, hpeek, h⟩ := bind_eq_ok.mp h
    obtain ⟨e, v, hleft1, rfl⟩ := peekU8_some hpeek
    split at h
    · next hclosing =>
      rw [seek_one hleft1] at h
      cases h
      obtain rfl : e = closing := UInt8.toNat_inj.mp hclosing
      refine ⟨l, _, hl, .empty hr, ?_⟩
      rw [hws, hleft, ← hnext, hws1, hleft1, left_advance_one hleft1]
      simp only [List.append_assoc, List.cons_append, List.nil_append]
    · obtain ⟨zs, ws, rfl, hitems, hrest⟩ := groupLoop_ok hitem h
      refine ⟨l, _, hl, .items (hitems.space hr), ?_⟩
      rw [hws, hleft, ← hnext, hws1, hrest]
      simp only [List.append_assoc, List.cons_append, List.nil_append]

theorem follows_space {r : Str} (hr : Ws r) {b : UInt8} (hb : isFollow b = true) : Follows (r ++ (b :: rest)) := by
  intro c hc
  cases r with
  | nil =>
    cases hc
    exact hb
  | cons d r =>
    cases hc
    rw [isFollow, hr c List.mem_cons_self]
    rfl

/-- What the items and the brackets of a group begin with. -/
structure Bracketed (E : α → Str → Prop) (opening closing : UInt8) : Prop where
  start : ∀ x w, E x w → ∃ b v, w = b :: v ∧ Json.isWs b = false ∧ b ≠ closing
  opens : Json.isWs opening = false
  closes : Json.isWs closing = false
  follow : isFollow closing = true
  comma : closing ≠ 0x2C

/-- Whitespace in front of an item. -/
theorem Bracketed.eat (hb : Bracketed E opening closing) {x : α} {l w : Str} (hl : Ws l) (hx : E x w)
    (hleft : Cursor.left st = l ++ (w ++ rest)) : Cursor.left (eatWs st) = w ++ rest := by
  refine eatWs_left hl hleft ?_
  obtain ⟨b, v, rfl, hspace, -⟩ := hb.start x w hx
  rintro _ ⟨⟩
  exact hspace

theorem groupLoop_word (hb : Bracketed E opening closing) (hitem : Complete E k item) {zs : List α} {ws : Str}
    (h : Json.Items E zs ws) {n : ℕ} (hk : ws.length ≤ k) (hn : ws.length ≤ n) (xs : List α)
    (hleft : Cursor.left st = ws ++ (closing :: rest)) :
    ∃ st', groupLoop closing.toNat item n xs st = .ok (xs ++ zs, st') ∧ Cursor.left st' = rest := by
  induction h generalizing n xs st with
  | @one x l w r hl hx hr =>
    obtain ⟨b, v, hword, -, -⟩ := hb.start x w hx
    have hlen : w.length = v.length + 1 := by rw [hword, List.length_cons]
    simp only [List.length_append] at hk hn
    obtain ⟨n, rfl⟩ : ∃ m, n = m + 1 := ⟨n - 1, by omega⟩
    simp only [List.append_assoc] at hleft
    obtain ⟨st1, hok, hleft1⟩ := hitem x w (eatWs st) _ (by omega) hx (hb.eat hl hx hleft) (follows_space hr hb.follow)
    have hclosing := eatWs_left hr hleft1 (by rintro _ ⟨⟩; exact hb.closes)
    have hcomma : ¬ closing.toNat = 0x2C := fun heq => hb.comma (eq_of_toNat (by decide) heq)
    refine ⟨_, ?_, left_advance_one hclosing⟩
    rw [groupLoop, hok, ok_bind]
    dsimp only
    rw [readU8_cons hclosing, ok_bind]
    dsimp only
    rw [if_neg hcomma, if_pos rfl]
  | @cons x zs l w r ws hl hx hr tail ih =>
    simp only [List.length_append, List.length_cons] at hk hn
    obtain ⟨n, rfl⟩ : ∃ m, n = m + 1 := ⟨n - 1, by omega⟩
    simp only [List.append_assoc, List.cons_append] at hleft
    obtain ⟨st1, hok, hleft1⟩ := hitem x w (eatWs st) _ (by omega) hx (hb.eat hl hx hleft) (follows_space hr rfl)
    have hcomma := eatWs_left hr hleft1 (by rintro _ ⟨⟩; rfl)
    obtain ⟨st', hrest, hleft'⟩ := ih (n := n) (by omega) (by omega) (xs ++ [x]) (left_advance_one hcomma)
    refine ⟨st', ?_, hleft'⟩
    rw [groupLoop, hok, ok_bind]
    dsimp only
    rw [readU8_cons hcomma, ok_bind]
    dsimp only
    rw [if_pos (by decide), hrest, List.append_assoc, List.singleton_append]

theorem parseGroup_word (hb : Bracketed E opening closing) (hitem : Complete E k item) :
    Complete (Group opening closing E) (k + 1) (parseGroup opening.toNat closing.toNat item) := by
  intro xs w st rest hlen hgroup hleft _
  have hskip : ∀ v, w = opening :: v → Cursor.left (eatWs st) = opening :: (v ++ rest) := by
    rintro v rfl
    exact eatWs_left (fun _ h => absurd h List.not_mem_nil) hleft (by rintro _ ⟨⟩; exact hb.opens)
  rw [parseGroup]
  cases hgroup with
  | @empty l hl =>
    have hopening := hskip _ rfl
    rw [List.append_assoc] at hopening
    have hclosing := eatWs_left hl (left_advance_one hopening) (by rintro _ ⟨⟩; exact hb.closes)
    refine ⟨_, ?_, left_advance_one hclosing⟩
    rw [readU8_cons hopening, ok_bind]
    dsimp only
    rw [if_neg (by simp), peekU8_cons hclosing, ok_bind, if_pos rfl, seek_one hclosing, ok_bind]
  | @items _ ws h =>
    have hopening := hskip _ rfl
    rw [List.append_assoc] at hopening
    have hbehind := left_advance_one hopening
    obtain ⟨l, v, b, u, hl, hws, hitems, hword, hspace, hne⟩ : ∃ l v b u, Ws l ∧ ws = l ++ v ∧ Json.Items E xs v ∧
        v = b :: u ∧ Json.isWs b = false ∧ b ≠ closing := by
      cases h with
      | @one x l w r hl hx hr =>
        obtain ⟨b, u, rfl, hspace, hne⟩ := hb.start x w hx
        exact ⟨l, _, b, _, hl, rfl, .one (l := []) (fun _ h => absurd h List.not_mem_nil) hx hr, rfl, hspace, hne⟩
      | @cons x xs l w r ws hl hx hr tail =>
        obtain ⟨b, u, rfl, hspace, hne⟩ := hb.start x w hx
        exact ⟨l, _, b, _, hl, rfl, .cons (l := []) (fun _ h => absurd h List.not_mem_nil) hx hr tail, rfl, hspace, hne⟩
    rw [hws, List.append_assoc] at hbehind
    have hfirst := eatWs_left hl hbehind (by rw [hword]; rintro _ ⟨⟩; exact hspace)
    have hfirst' : Cursor.left (eatWs ((eatWs st).advance 1)) = b :: (u ++ ([closing] ++ rest)) := by
      rw [hfirst, hword]
      rfl
    have hsize : v.length ≤ ws.length := by
      rw [hws, List.length_append]
      omega
    simp only [List.length_cons, List.length_append] at hlen
    have hn : v.length ≤ (eatWs ((eatWs st).advance 1)).remaining + 1 := by
      rw [remaining_eq, hfirst, List.length_append]
      omega
    obtain ⟨st', hok, hleft'⟩ := groupLoop_word hb hitem hitems (by omega) hn [] hfirst
    refine ⟨st', ?_, hleft'⟩
    rw [readU8_cons hopening, ok_bind]
    dsimp only
    rw [if_neg (by simp), peekU8_cons hfirst', ok_bind, if_neg (fun heq => hne (UInt8.toNat_inj.mp heq)), hok]
    rfl

end Groups

/-! ### Values -/

/-- The number for a literal whose integer does not overflow. -/
def Fits (n : JsonNumber) (l : Literal) : Prop := Json.decimal l.int < 2 ^ 63 ∧ n = readLiteral l

section Values
variable {st st' : Stream} {lit rest : Str} {t : JsonValue} {p : Stream → R (JsonValue × Stream)}

/-- The words of the language. -/
theorem startsWith_left (h : st.startsWith lit = true) : ∃ rest, Cursor.left st = lit ++ rest := by
  rw [Stream.startsWith, List.isPrefixOf_iff_prefix] at h
  obtain ⟨rest, heq⟩ := h
  exact ⟨rest, by rw [left_eq, heq]⟩

theorem startsWith_word (hleft : Cursor.left st = lit ++ rest) : st.startsWith lit = true := by
  rw [Stream.startsWith, List.isPrefixOf_iff_prefix, ← left_eq, hleft]
  exact List.prefix_append lit rest

/-- A word is behind the cursor as soon as it is read. -/
theorem slice_lit {s : Stream} (hleft : Cursor.left st = lit ++ rest) (h : st.slice lit.length = .ok (s, st')) :
    Cursor.left st' = rest := by
  rw [Stream.slice] at h
  split at h
  · simp at h
  · split at h
    · simp [Stream.notEnough] at h
    · cases h
      exact left_behind hleft

theorem slice_ok (hlit : lit ≠ []) (hleft : Cursor.left st = lit ++ rest) :
    ∃ s st', st.slice lit.length = .ok (s, st') ∧ Cursor.left st' = rest := by
  have hne : lit.length ≠ 0 := fun h => hlit (List.eq_nil_of_length_eq_zero h)
  have hlong : ¬ st.remaining < lit.length := by
    rw [remaining_eq, hleft, List.length_append]
    omega
  refine ⟨Stream.from_ ((st.s.drop st.p).take lit.length), st.advance lit.length, ?_, left_behind hleft⟩
  rw [Stream.slice, if_neg hne, if_neg hlong]

theorem caseString_ok : Sound (Value Fits) caseString := by
  intro st t st' h
  obtain ⟨⟨raw, st1⟩, hstring, h⟩ := bind_eq_ok.mp h
  cases h
  obtain ⟨l, hl, hraw, hleft⟩ := parseString_ok hstring
  refine ⟨l, _, hl, .str hraw, ?_⟩
  rw [hleft]
  simp only [List.append_assoc, List.cons_append, List.nil_append]

/-- A case that reads its word, or falls through. -/
theorem case_ok {g : Prop} [Decidable g] (hlit : g → st.startsWith lit = true) (hword : Value Fits t lit)
    (hnext : Sound (Value Fits) p) {t' : JsonValue} (h : (if g then do
      let (_, st) ← st.slice lit.length
      .ok (t, st)
    else p st) = .ok (t', st')) : ∃ l w, Ws l ∧ Value Fits t' w ∧ Cursor.left st = l ++ (w ++ Cursor.left st') := by
  split at h
  · next hg =>
    obtain ⟨rest, hleft⟩ := startsWith_left (hlit hg)
    obtain ⟨⟨s, st1⟩, hslice, h⟩ := bind_eq_ok.mp h
    cases h
    refine ⟨[], lit, (fun _ h => absurd h List.not_mem_nil), hword, ?_⟩
    rw [slice_lit hleft hslice]
    exact hleft
  · exact hnext _ _ _ h

theorem caseNull_ok : Sound (Value Fits) caseNull := by
  have hword : Value Fits .null nullLit := .null
  exact fun _ _ _ h => case_ok id hword caseString_ok h

theorem caseFalse_ok : Sound (Value Fits) caseFalse := by
  have hword : Value Fits (.bool false) falseLit := .false_
  exact fun _ _ _ h => case_ok And.right hword caseNull_ok h

theorem caseTrue_ok : Sound (Value Fits) caseTrue := by
  have hword : Value Fits (.bool true) trueLit := .true_
  exact fun _ _ _ h => case_ok id hword caseFalse_ok h

theorem parseMember_ok (hp : Sound (Value Fits) p) : Sound (Member (Value Fits)) (parseMember p) := by
  intro st x st' h
  obtain ⟨⟨k, st1⟩, hkey, h⟩ := bind_eq_ok.mp h
  obtain ⟨⟨c, st2⟩, hread, h⟩ := bind_eq_ok.mp h
  obtain ⟨b, w, hleft, rfl, rfl⟩ := readU8_some hread
  obtain ⟨l, hl, hraw, hsplit⟩ := parseString_ok hkey
  obtain ⟨r, hr, hws⟩ := eatWs_ok st1
  have hnext := left_advance_one hleft
  dsimp only at h
  split at h
  · simp [invalid] at h
  · next hcolon =>
    rw [eq_of_toNat (by decide) (not_not.mp hcolon)] at hleft
    obtain ⟨⟨v, st3⟩, hvalue, h⟩ := bind_eq_ok.mp h
    cases h
    obtain ⟨a, ha, hws2⟩ := eatWs_ok ((eatWs st1).advance 1)
    obtain ⟨a', u, ha', hu, hsplit2⟩ := hp _ _ _ hvalue
    refine ⟨l, _, hl, .mk hraw hr (ha.append ha') hu, ?_⟩
    rw [hsplit, hws, hleft, ← hnext, hws2, hsplit2]
    simp only [List.append_assoc, List.cons_append]
    rfl

theorem parseValue_ok (n : ℕ) : Sound (Value Fits) (parseValue n) := by
  induction n with
  | zero =>
    intro st t st' h
    simp [parseValue] at h
  | succ n ih =>
    intro st t st' h
    obtain ⟨l, hl, hws⟩ := eatWs_ok st
    obtain ⟨c, -, h⟩ := bind_eq_ok.mp h
    have key : ∃ l w, Ws l ∧ Value Fits t w ∧ Cursor.left (eatWs st) = l ++ (w ++ Cursor.left st') := by
      split at h
      · obtain ⟨⟨xs, st1⟩, hobj, h⟩ := bind_eq_ok.mp h
        cases h
        have hgroup : Sound (Group 0x7B 0x7D (Member (Value Fits))) (parseObject (parseValue n)) :=
          parseGroup_ok (parseMember_ok ih)
        obtain ⟨a, w, ha, hw, hleft⟩ := hgroup _ _ _ hobj
        exact ⟨a, w, ha, .obj hw, hleft⟩
      · split at h
        · obtain ⟨⟨xs, st1⟩, harr, h⟩ := bind_eq_ok.mp h
          cases h
          have hgroup : Sound (Group 0x5B 0x5D (Value Fits)) (parseArray (parseValue n)) := parseGroup_ok ih
          obtain ⟨a, w, ha, hw, hleft⟩ := hgroup _ _ _ harr
          exact ⟨a, w, ha, .arr hw, hleft⟩
        · split at h
          · exact caseTrue_ok _ _ _ h
          · split at h
            · exact caseFalse_ok _ _ _ h
            · split at h
              · exact caseNull_ok _ _ _ h
              · split at h
                · exact caseString_ok _ _ _ h
                · obtain ⟨⟨x, st1⟩, hnum, h⟩ := bind_eq_ok.mp h
                  cases h
                  obtain ⟨lit, hleft, hfits, rfl⟩ := parseNumber_ok hnum
                  exact ⟨[], _, (fun _ h => absurd h List.not_mem_nil), .num ⟨hfits, rfl⟩, hleft⟩
    obtain ⟨a, w, ha, hw, hleft⟩ := key
    refine ⟨l ++ a, w, hl.append ha, hw, ?_⟩
    rw [hws, hleft, List.append_assoc]

theorem isStart_toNat {b : UInt8} (h : Json.isStart b = true) :
    Json.isWs b = false ∧ b.toNat ≠ 0x5D ∧ b.toNat ≠ 0x7D ∧ b.toNat ≠ 0 := by
  simp only [Json.isStart, Json.isDigit, Bool.or_eq_true, Bool.and_eq_true, decide_eq_true_eq] at h
  simp only [Json.isWs, Bool.or_eq_false_iff, decide_eq_false_iff_not]
  omega

theorem value_stops {w : Str} (h : Value Fits t w) : Stops Json.isWs (w ++ rest) := by
  obtain ⟨b, v, rfl, hb⟩ := h.start
  rintro _ ⟨⟩
  exact (isStart_toNat hb).1

theorem value_bracketed : Bracketed (Value Fits) 0x5B 0x5D where
  start t w h := by
    obtain ⟨b, v, hw, hb⟩ := h.start
    obtain ⟨hspace, hne, -⟩ := isStart_toNat hb
    refine ⟨b, v, hw, hspace, ?_⟩
    rintro rfl
    exact hne rfl
  opens := rfl
  closes := rfl
  follow := rfl
  comma := by decide

theorem member_bracketed : Bracketed (Member (Value Fits)) 0x7B 0x7D where
  start x w h := by
    cases h
    exact ⟨_, _, rfl, rfl, by decide⟩
  opens := rfl
  closes := rfl
  follow := rfl
  comma := by decide

theorem parseMember_word {k : ℕ} (hp : Complete (Value Fits) k p) :
    Complete (Member (Value Fits)) k (parseMember p) := by
  intro x u st rest hlen hmember hleft hrest
  cases hmember with
  | @mk key w b c v hkey hb hc hv =>
    simp only [List.length_cons, List.length_append] at hlen
    simp only [List.append_assoc, List.cons_append] at hleft
    obtain ⟨st1, hstring, hleft1⟩ := parseString_word (l := []) (fun _ h => absurd h List.not_mem_nil) hkey hleft
    have hcolon := eatWs_left hb hleft1 (by rintro _ ⟨⟩; rfl)
    have hvalue := eatWs_left hc (left_advance_one hcolon) (value_stops hv)
    obtain ⟨st', hok, hleft'⟩ := hp v w _ rest (by omega) hv hvalue hrest
    refine ⟨st', ?_, hleft'⟩
    rw [parseMember, hstring, ok_bind]
    dsimp only
    rw [readU8_cons hcolon, ok_bind]
    dsimp only
    rw [if_neg (by decide), hok]
    rfl

/-- The case of a word reads it. -/
theorem case_word {g : Prop} [Decidable g] (hg : g) (hlit : lit ≠ []) (hleft : Cursor.left st = lit ++ rest) :
    ∃ st', (if g then do
      let (_, st) ← st.slice lit.length
      .ok (t, st)
    else p st) = .ok (t, st') ∧ Cursor.left st' = rest := by
  obtain ⟨s, st', hslice, hleft'⟩ := slice_ok hlit hleft
  refine ⟨st', ?_, hleft'⟩
  rw [if_pos hg, hslice]
  rfl

theorem parseValue_word (n : ℕ) : Complete (Value Fits) n (parseValue n) := by
  induction n with
  | zero =>
    intro t w st rest hlen hvalue _ _
    obtain ⟨b, v, rfl, -⟩ := hvalue.start
    exact absurd hlen (Nat.not_succ_le_zero _)
  | succ n ih =>
    intro t w st rest hlen hvalue hleft hrest
    have hfirst : Cursor.left (eatWs st) = w ++ rest :=
      eatWs_left (l := []) (fun _ h => absurd h List.not_mem_nil) hleft (value_stops hvalue)
    have hpeek : ∀ {b v}, w = b :: v → (eatWs st).peekU8 = .ok b.toNat := by
      rintro b v rfl
      exact peekU8_cons hfirst
    rw [parseValue]
    cases hvalue with
    | null =>
      rw [hpeek rfl, ok_bind]
      exact case_word (startsWith_word hfirst) (by decide) hfirst
    | true_ =>
      rw [hpeek rfl, ok_bind]
      exact case_word (startsWith_word hfirst) (by decide) hfirst
    | false_ =>
      have hlong : (eatWs st).remaining ≥ 5 := by
        rw [remaining_eq, hfirst]
        simp
      rw [hpeek rfl, ok_bind]
      exact case_word ⟨hlong, startsWith_word hfirst⟩ (by decide) hfirst
    | @num x l h =>
      obtain ⟨b, v, hword, hb⟩ := l.word_start
      obtain ⟨hfits, rfl⟩ := h
      obtain ⟨st', hok, hleft'⟩ := parseNumber_word l hfirst hrest hfits
      have hbyte : 0x30 ≤ b.toNat ∧ b.toNat ≤ 0x39 ∨ b.toNat = 0x2D := by
        simpa only [Json.isDigit, Bool.and_eq_true, decide_eq_true_eq] using hb
      refine ⟨st', ?_, hleft'⟩
      rw [hpeek hword, ok_bind, if_neg (by omega), if_neg (by omega), if_neg (by omega), if_neg (by omega),
        if_neg (by omega), if_neg (by omega), hok]
      rfl
    | @str raw h =>
      have hquoted : Cursor.left (eatWs st) = [] ++ (0x22 :: (raw ++ (0x22 :: rest))) := by
        rw [hfirst]
        simp
      obtain ⟨st', hok, hleft'⟩ := parseString_word (fun _ h => absurd h List.not_mem_nil) h hquoted
      refine ⟨st', ?_, hleft'⟩
      rw [hpeek rfl, ok_bind]
      change caseString (eatWs st) = _
      rw [caseString, hok]
      rfl
    | @arr xs _ h =>
      obtain ⟨st', hok, hleft'⟩ := parseGroup_word value_bracketed ih xs w _ rest hlen h hfirst hrest
      obtain ⟨v, hv⟩ : ∃ v, w = 0x5B :: v := by cases h <;> exact ⟨_, rfl⟩
      refine ⟨st', ?_, hleft'⟩
      rw [hpeek hv, ok_bind]
      change (parseArray (parseValue n) (eatWs st) >>= _) = _
      rw [parseArray, show parseGroup 0x5B 0x5D (parseValue n) (eatWs st) = _ from hok]
      rfl
    | @obj xs _ h =>
      obtain ⟨st', hok, hleft'⟩ := parseGroup_word member_bracketed
        (parseMember_word ih) xs w _ rest hlen h hfirst hrest
      obtain ⟨v, hv⟩ : ∃ v, w = 0x7B :: v := by cases h <;> exact ⟨_, rfl⟩
      refine ⟨st', ?_, hleft'⟩
      rw [hpeek hv, ok_bind]
      change (parseObject (parseValue n) (eatWs st) >>= _) = _
      rw [parseObject, show parseGroup 0x7B 0x7D (parseMember (parseValue n)) (eatWs st) = _ from hok]
      rfl

end Values

/-! ### Texts -/

/-- Nothing but whitespace, or one value. -/
def IsJson (w : Str) : Prop := Ws w ∨ ∃ t : JsonValue, Text (fun n l => n = readLiteral l) t w

/-- The same, and the integer part of every number is below `2^63`. -/
def Bounded (w : Str) : Prop := Ws w ∨ ∃ t : JsonValue, Text Fits t w

theorem Bounded.isJson {w : Str} (h : Bounded w) : IsJson w :=
  h.imp id fun ⟨t, ht⟩ => ⟨t, ht.imp fun _ _ hn => hn.2⟩

/-- `json_parse` takes exactly the texts, and returns the tree of a derivation. -/
structure ParsesJson (w : Str) : Prop where
  accepts : (∃ v, jsonParse w = .ok v) ↔ IsJson w
  blank : jsonParse w = .ok none → Ws w
  tree : ∀ t, jsonParse w = .ok (some t) → Text (fun n l => n = readLiteral l) t w

theorem left_from (w : Str) : Cursor.left (Stream.from_ w) = w := by
  rw [left_eq]
  rfl

theorem ended_nil {w : Str} {st : Stream} (hzero : 0 ∉ w) {l : Str} (hleft : w = l ++ Cursor.left st)
    (h : streamEnded st = true) : Cursor.left st = [] := by
  cases hrest : Cursor.left st with
  | nil => rfl
  | cons b v =>
    rw [streamEnded_cons hrest, decide_eq_true_eq] at h
    obtain rfl : b = 0 := UInt8.toNat_inj.mp h
    refine absurd ?_ hzero
    rw [hleft, hrest]
    exact List.mem_append_right _ List.mem_cons_self

theorem jsonParse_ok {w : Str} (hzero : 0 ∉ w) {v : Option JsonValue} (h : jsonParse w = .ok v) :
    (v = none ∧ Ws w) ∨ ∃ t, v = some t ∧ Text Fits t w := by
  rw [jsonParse] at h
  split at h
  · next hempty =>
    cases h
    exact .inl ⟨rfl, fun c hc => by rw [hempty] at hc; exact absurd hc List.not_mem_nil⟩
  · obtain ⟨l, hl, hws⟩ := eatWs_ok (Stream.from_ w)
    rw [left_from] at hws
    dsimp only at h
    split at h
    · next hended =>
      cases h
      have hnil := ended_nil hzero hws hended
      rw [hnil, List.append_nil] at hws
      exact .inl ⟨rfl, by rw [hws]; exact hl⟩
    · obtain ⟨⟨t, st1⟩, hvalue, h⟩ := bind_eq_ok.mp h
      obtain ⟨a, u, ha, hu, hsplit⟩ := parseValue_ok _ _ _ _ hvalue
      obtain ⟨r, hr, hws1⟩ := eatWs_ok st1
      dsimp only at h
      split at h
      · simp [invalid] at h
      · next hended =>
        cases h
        have hall : w = l ++ a ++ (u ++ r) ++ Cursor.left (eatWs st1) := by
          rw [hws, hsplit, hws1]
          simp only [List.append_assoc]
        have hnil := ended_nil hzero hall (by simpa using hended)
        rw [hnil, List.append_nil] at hall
        refine .inr ⟨t, rfl, ?_⟩
        rw [hall]
        exact .mk (hl.append ha) hu hr

theorem follows_ws {r : Str} (hr : Ws r) : Follows r := by
  intro b hb
  rw [isFollow, hr b (List.mem_of_mem_head? hb)]
  rfl

theorem jsonParse_word {w : Str} (h : Bounded w) : ∃ v, jsonParse w = .ok v := by
  rw [jsonParse]
  by_cases hempty : w = []
  · rw [if_pos hempty]
    exact ⟨none, rfl⟩
  · rw [if_neg hempty]
    dsimp only
    rcases h with hspace | ⟨t, htext⟩
    · have hnil : Cursor.left (eatWs (Stream.from_ w)) = [] :=
        eatWs_left hspace (by rw [left_from, List.append_nil]) (by rintro _ ⟨⟩)
      rw [streamEnded_nil hnil, if_pos rfl]
      exact ⟨none, rfl⟩
    · cases htext with
      | @mk l u r hl hu hr =>
        have hfirst : Cursor.left (eatWs (Stream.from_ (l ++ (u ++ r)))) = u ++ r :=
          eatWs_left hl (left_from _) (value_stops hu)
        have hended : streamEnded (eatWs (Stream.from_ (l ++ (u ++ r)))) = false := by
          obtain ⟨b, v, rfl, hb⟩ := hu.start
          rw [streamEnded_cons hfirst, decide_eq_false_iff_not]
          exact (isStart_toNat hb).2.2.2
        have hlen : u.length ≤ (eatWs (Stream.from_ (l ++ (u ++ r)))).remaining + 1 := by
          rw [remaining_eq, hfirst, List.length_append]
          omega
        obtain ⟨st', hok, hleft'⟩ := parseValue_word _ t u _ r hlen hu hfirst (follows_ws hr)
        have hnil : Cursor.left (eatWs st') = [] :=
          eatWs_left hr (by rw [hleft', List.append_nil]) (by rintro _ ⟨⟩)
        rw [hended, if_neg (by decide), hok, ok_bind]
        dsimp only
        rw [streamEnded_nil hnil]
        exact ⟨some t, rfl⟩

/-- `9223372036854775808` -/
def beyond : Literal where
  neg := false
  int := lowest.int
  frac := none
  exp := none
  isInt := lowest.isInt
  noZero := lowest.noZero
  isFrac := lowest.isFrac

end Sjson

end Silverfir

import Scriptlet.Proofs.LineBreaks
import Scriptlet.Text.LineTable

/-!
Places of byte offsets. The line table finds the line of an offset by bisection and counts the
characters from where that line begins. What it finds is what one finds by going through the text
character by character: as many lines as there are line breaks before the offset, and as many
columns as there are characters behind the last of them. An offset inside a character is in the
first column of its line, and every offset past the end is the end.
-/

namespace Scriptlet

open String (utf8Len utf8Len_nil utf8Len_cons utf8Len_append)

namespace Position

def Before (p q : Position) : Prop := p.line < q.line ∨ p.line = q.line ∧ p.column < q.column

theorem Before.trans {p q r : Position} (h : p.Before q) (k : q.Before r) : p.Before r := by
  unfold Before at h k ⊢
  omega

theorem Before.ne {p q : Position} (h : p.Before q) : p ≠ q := by
  rintro rfl
  unfold Before at h
  omega

theorem before_next (p : Position) (c : Char) : p.Before (p.next c) := by
  unfold Before next
  split
  · exact .inl (Nat.lt_succ_self _)
  · exact .inr ⟨rfl, Nat.lt_succ_self _⟩

theorem before_after (p : Position) {cs : List Char} (h : cs ≠ []) : p.Before (p.after cs) := by
  induction cs generalizing p with
  | nil => exact absurd rfl h
  | cons c cs ih =>
    rw [after_cons]
    by_cases hcs : cs = []
    · rw [hcs]
      exact p.before_next c
    · exact (p.before_next c).trans (ih (p.next c) hcs)

theorem column_after (cs : List Char) :
    (first.after cs).column = 1 + (cs.rtakeWhile (· ≠ '\n')).length := by
  induction cs using List.reverseRecOn with
  | nil => rfl
  | append_singleton cs c ih =>
    rw [after_append, after_cons, after_nil, next]
    split
    next hc => rw [List.rtakeWhile_concat_neg _ _ _ (by simpa using hc), List.length_nil]
    next hc =>
      rw [List.rtakeWhile_concat_pos _ _ _ (by simpa using hc), List.length_append, ih,
        List.length_singleton, Nat.add_assoc]

/-- The place so many bytes behind `p`, if the characters stand there. -/
def atByte (p : Position) : List Char → Nat → Position
  | [], _ => p
  | c :: cs, bytes =>
    if bytes = 0 then p
    else if c.utf8Size ≤ bytes then (p.next c).atByte cs (bytes - c.utf8Size)
    else ⟨p.line, 1⟩

theorem atByte_zero (p : Position) (cs : List Char) : p.atByte cs 0 = p := by
  cases cs <;> simp [atByte]

theorem atByte_cons (p : Position) (c : Char) (cs : List Char) (bytes : Nat) :
    p.atByte (c :: cs) (c.utf8Size + bytes) = (p.next c).atByte cs bytes := by
  have hpos := c.utf8Size_pos
  rw [atByte, if_neg (by omega), if_pos (Nat.le_add_right _ _), Nat.add_sub_cancel_left]

theorem atByte_append (p : Position) (before rest : List Char) (bytes : Nat) :
    p.atByte (before ++ rest) (utf8Len before + bytes) = (p.after before).atByte rest bytes := by
  induction before generalizing p with
  | nil => rw [List.nil_append, utf8Len_nil, Nat.zero_add, after_nil]
  | cons c before ih =>
    rw [List.cons_append, utf8Len_cons, Nat.add_comm (utf8Len before), Nat.add_assoc, atByte_cons,
      ih, after_cons]

theorem atByte_boundary (p : Position) (before rest : List Char) :
    p.atByte (before ++ rest) (utf8Len before) = p.after before := by
  rw [← atByte_zero (p.after before) rest, ← atByte_append, Nat.add_zero]

theorem atByte_of_le (p : Position) {cs : List Char} {bytes : Nat} (h : bytes ≤ utf8Len cs)
    (rest : List Char) : p.atByte (cs ++ rest) bytes = p.atByte cs bytes := by
  induction cs generalizing p bytes with
  | nil =>
    obtain rfl : bytes = 0 := Nat.le_zero.1 h
    rw [List.nil_append, atByte_zero, atByte]
  | cons c cs ih =>
    rw [utf8Len_cons] at h
    rw [List.cons_append, atByte, atByte, ih (p.next c) (by omega)]

theorem atByte_of_ge (p : Position) {cs : List Char} {bytes : Nat} (h : utf8Len cs ≤ bytes) :
    p.atByte cs bytes = p.after cs := by
  obtain ⟨more, rfl⟩ := Nat.exists_eq_add_of_le h
  have happend := p.atByte_append cs [] more
  rwa [List.append_nil] at happend

theorem atByte_min (p : Position) (cs : List Char) (bytes : Nat) :
    p.atByte cs (min bytes (utf8Len cs)) = p.atByte cs bytes := by
  rcases le_total bytes (utf8Len cs) with hle | hge
  · rw [min_eq_left hle]
  · rw [min_eq_right hge, atByte_of_ge _ le_rfl, atByte_of_ge _ hge]

theorem atByte_inside (p : Position) (before rest : List Char) {c : Char} {bytes : Nat}
    (hpos : 0 < bytes) (hlt : bytes < c.utf8Size) :
    p.atByte (before ++ c :: rest) (utf8Len before + bytes) = ⟨(p.after before).line, 1⟩ := by
  rw [atByte_append, atByte, if_neg (by omega), if_neg (by omega)]

end Position

theorem eq_newline_of_mem_bytes {c : Char} (h : (10 : UInt8) ∈ String.utf8EncodeChar c) :
    c = '\n' := by
  have hbyte : ∀ {n : Nat}, n < 256 → (10 : UInt8) = UInt8.ofNat n → n = 10 := by
    intro n hn heq
    have htoNat := congrArg UInt8.toNat heq
    rw [UInt8.toNat_ofNat', Nat.mod_eq_of_lt hn] at htoNat
    exact htoNat.symm
  -- Every byte of a character that takes more than one is at least 128.
  have hhigh : ∀ {n : Nat}, 128 ≤ n → n < 256 → (10 : UInt8) ≠ UInt8.ofNat n := by
    intro n hlow hn heq
    have hten := hbyte hn heq
    omega
  unfold String.utf8EncodeChar at h
  dsimp only at h
  split_ifs at h with hone htwo hthree
  · exact Char.ext (UInt32.toNat_inj.1 (hbyte (by omega) (List.mem_singleton.1 h)))
  · rcases List.mem_pair.1 h with h | h <;> exact absurd h (hhigh (by omega) (by omega))
  all_goals
    simp only [List.mem_cons, List.not_mem_nil, or_false] at h
  · obtain h | h | h := h <;> exact absurd h (hhigh (by omega) (by omega))
  · obtain h | h | h | h := h <;> exact absurd h (hhigh (by omega) (by omega))

theorem bytes_eq (text : String) :
    text.toByteArray.data.toList = text.toList.flatMap String.utf8EncodeChar := by
  nth_rewrite 1 [← String.ofList_toList (s := text)]
  rw [String.toByteArray_ofList, List.utf8Encode, List.toList_data_toByteArray]

theorem Position.line_next (p : Position) (c : Char) :
    (p.next c).line = p.line + (String.utf8EncodeChar c).count 10 := by
  by_cases hc : c = '\n'
  · rw [hc]
    rfl
  · have hnone : (10 : UInt8) ∉ String.utf8EncodeChar c := fun h => hc (eq_newline_of_mem_bytes h)
    rw [List.count_eq_zero_of_not_mem hnone, next, if_neg hc]
    rfl

theorem Position.line_atByte (p : Position) (cs : List Char) (bytes : Nat) :
    (p.atByte cs bytes).line =
      p.line + ((cs.flatMap String.utf8EncodeChar).take bytes).count 10 := by
  induction cs generalizing p bytes with
  | nil => rw [atByte, List.flatMap_nil, List.take_nil, List.count_nil, Nat.add_zero]
  | cons c cs ih =>
    have hsize := String.length_utf8EncodeChar c
    rw [List.flatMap_cons, List.take_append, List.count_append, hsize]
    rcases Nat.eq_zero_or_pos bytes with rfl | hpos
    · rw [atByte_zero]
      simp
    by_cases hfits : c.utf8Size ≤ bytes
    · rw [atByte, if_neg hpos.ne', if_pos hfits, ih, List.take_of_length_le (hsize.trans_le hfits),
        line_next, Nat.add_assoc]
    · have hnone : (10 : UInt8) ∉ (String.utf8EncodeChar c).take bytes := by
        intro h
        obtain rfl := eq_newline_of_mem_bytes (List.mem_of_mem_take h)
        exact hfits hpos
      rw [atByte, if_neg hpos.ne', if_neg hfits, List.count_eq_zero_of_not_mem hnone,
        Nat.sub_eq_zero_of_le (by omega), List.take_zero, List.count_nil]
      rfl

theorem boundary_or_inside {cs : List Char} {bytes : Nat} (h : bytes ≤ utf8Len cs) :
    (∃ before rest, cs = before ++ rest ∧ utf8Len before = bytes) ∨
      ∃ before c rest inner, cs = before ++ c :: rest ∧ utf8Len before + inner = bytes ∧
        0 < inner ∧ inner < c.utf8Size := by
  induction cs generalizing bytes with
  | nil => exact .inl ⟨[], [], rfl, (Nat.le_zero.1 h).symm⟩
  | cons c cs ih =>
    rw [utf8Len_cons] at h
    rcases Nat.eq_zero_or_pos bytes with rfl | hpos
    · exact .inl ⟨[], c :: cs, rfl, rfl⟩
    by_cases hfits : c.utf8Size ≤ bytes
    · have htail : bytes - c.utf8Size ≤ utf8Len cs := by omega
      rcases ih htail with ⟨before, rest, rfl, hlen⟩ | ⟨before, d, rest, inner, rfl, hlen, hin⟩
      · exact .inl ⟨c :: before, rest, rfl, by rw [utf8Len_cons]; omega⟩
      · exact .inr ⟨c :: before, d, rest, inner, rfl, by rw [utf8Len_cons]; omega, hin⟩
    · exact .inr ⟨[], c, cs, bytes, rfl, by rw [utf8Len_nil, Nat.zero_add], hpos, by omega⟩

namespace LineTable

theorem split_newline (offset : Nat) (cs : List Char) : split offset ('\n' :: cs) =
    (⟨offset, []⟩, (split (offset + 1) cs).1 :: (split (offset + 1) cs).2) := by
  rw [split, if_pos rfl]

theorem split_cons {c : Char} (h : c ≠ '\n') (offset : Nat) (cs : List Char) :
    split offset (c :: cs) = (⟨offset, c :: (split (offset + c.utf8Size) cs).1.chars⟩,
      (split (offset + c.utf8Size) cs).2) := by
  rw [split, if_neg h]

theorem offset_split (offset : Nat) (cs : List Char) : (split offset cs).1.offset = offset := by
  cases cs with
  | nil => rfl
  | cons c cs =>
    by_cases hc : c = '\n'
    · rw [hc, split_newline]
    · rw [split_cons hc]

theorem lt_offset_split {offset : Nat} {cs : List Char} {line : Line}
    (h : line ∈ (split offset cs).2) : offset < line.offset := by
  induction cs generalizing offset with
  | nil => cases h
  | cons c cs ih =>
    by_cases hc : c = '\n'
    · rw [hc, split_newline] at h
      rcases List.mem_cons.1 h with rfl | h
      · rw [offset_split]
        exact Nat.lt_succ_self offset
      · exact (Nat.lt_succ_self offset).trans (ih h)
    · rw [split_cons hc] at h
      exact (Nat.le_add_right offset _).trans_lt (ih h)

theorem sorted_split (offset : Nat) (cs : List Char) :
    ((split offset cs).1 :: (split offset cs).2).Pairwise (·.offset < ·.offset) := by
  induction cs generalizing offset with
  | nil => exact List.pairwise_singleton _ _
  | cons c cs ih =>
    have hlater : ∀ line ∈ (split offset (c :: cs)).2,
        (split offset (c :: cs)).1.offset < line.offset := by
      intro line hline
      rw [offset_split]
      exact lt_offset_split hline
    refine List.pairwise_cons.2 ⟨hlater, ?_⟩
    by_cases hc : c = '\n'
    · rw [hc, split_newline]
      exact ih (offset + 1)
    · rw [split_cons hc]
      exact (List.pairwise_cons.1 (ih (offset + c.utf8Size))).2

/-- Whether the lines that begin at or before an offset are the first so many. -/
structure Cut (lines : Array Line) (offset number : Nat) : Prop where
  upto : ∀ i (h : i < lines.size), i < number → lines[i].offset ≤ offset
  behind : ∀ i (h : i < lines.size), number ≤ i → offset < lines[i].offset
  inside : number ≤ lines.size

/-- Bisection finds the cut between two bounds of it. -/
theorem cut_bisect {lines : Array Line} {offset : Nat}
    (sorted : ∀ i j (hj : j < lines.size) (hij : i < j), lines[i].offset < lines[j].offset)
    (lo hi : Nat) (bound : hi ≤ lines.size)
    (below : ∀ i (h : i < lines.size), i < lo → lines[i].offset ≤ offset)
    (above : ∀ i (h : i < lines.size), hi ≤ i → offset < lines[i].offset) (order : lo ≤ hi) :
    Cut lines offset (bisect lines offset lo hi bound) := by
  fun_induction bisect lines offset lo hi bound with
  | case1 lo hi bound inside mid hmid hle ih =>
    refine ih ?_ above (by omega)
    intro i h hi'
    rcases Nat.lt_or_ge i mid with hlt | hge
    · exact (sorted i mid (by omega) hlt).le.trans hle
    · obtain rfl : i = mid := by omega
      exact hle
  | case2 lo hi bound inside mid hmid hgt ih =>
    refine ih below ?_ (by omega)
    intro i h hi'
    rcases Nat.lt_or_ge mid i with hlt | hge
    · exact (Nat.lt_of_not_le hgt).trans (sorted mid i h hlt)
    · obtain rfl : i = mid := by omega
      exact Nat.lt_of_not_le hgt
  | case3 lo hi bound outside =>
    obtain rfl : lo = hi := by omega
    exact ⟨below, above, bound⟩

/-- The place of an offset on a line that `p` is the place of. -/
def placeOn (p : Position) (line : Line) (offset : Nat) : Position :=
  match Line.charsIn line.chars (offset - line.offset) with
  | some count => ⟨p.line, p.column + count⟩
  | none => ⟨p.line, 1⟩

/-- The place of an offset, found line by line. -/
def seek (p : Position) (line : Line) : List Line → Nat → Position
  | [], offset => placeOn p line offset
  | next :: lines, offset =>
    if next.offset ≤ offset then seek ⟨p.line + 1, 1⟩ next lines offset else placeOn p line offset

theorem placeOn_start (p : Position) (chars : List Char) (offset : Nat) :
    placeOn p ⟨offset, chars⟩ offset = p := by
  unfold placeOn
  rw [Nat.sub_self, Line.charsIn]
  rfl

theorem seek_of_lt {p : Position} {line : Line} {lines : List Line} {offset : Nat}
    (h : ∀ next ∈ lines, offset < next.offset) :
    seek p line lines offset = placeOn p line offset := by
  cases lines with
  | nil => rfl
  | cons next lines => rw [seek, if_neg (Nat.not_le.2 (h next List.mem_cons_self))]

theorem charsIn_cons {c : Char} {bytes : Nat} (hpos : 0 < bytes) (cs : List Char) :
    Line.charsIn (c :: cs) bytes =
      if c.utf8Size ≤ bytes then (Line.charsIn cs (bytes - c.utf8Size)).map (· + 1) else none := by
  obtain ⟨n, rfl⟩ := Nat.exists_eq_succ_of_ne_zero hpos.ne'
  rfl

theorem placeOn_first {p : Position} (hp : p.column = 1) (line : Line) (offset : Nat) :
    placeOn p line offset = ⟨p.line, line.columnAt offset⟩ := by
  unfold placeOn Line.columnAt
  cases Line.charsIn line.chars (offset - line.offset) with
  | none => rfl
  | some count => simp only [hp, Nat.add_comm]

theorem placeOn_cons {c : Char} {line : Line} {start offset : Nat} (p : Position)
    (hstart : line.offset = start + c.utf8Size) (h : start + c.utf8Size ≤ offset) :
    placeOn p ⟨start, c :: line.chars⟩ offset =
      placeOn ⟨p.line, p.column + 1⟩ line offset := by
  have hpos : 0 < offset - start := by
    have hsize := c.utf8Size_pos
    omega
  have hfits : c.utf8Size ≤ offset - start := by omega
  have hrest : offset - start - c.utf8Size = offset - line.offset := by omega
  simp only [placeOn, charsIn_cons hpos, hfits, if_true, hrest]
  cases Line.charsIn line.chars (offset - line.offset) with
  | none => rfl
  | some count =>
    simp only [Option.map_some, Position.mk.injEq, true_and]
    omega

theorem placeOn_inside {c : Char} {start offset : Nat} (p : Position) (cs : List Char)
    (hlt : start < offset) (h : offset < start + c.utf8Size) :
    placeOn p ⟨start, c :: cs⟩ offset = ⟨p.line, 1⟩ := by
  have hpos : 0 < offset - start := by omega
  have hinside : ¬ c.utf8Size ≤ offset - start := by omega
  simp only [placeOn, charsIn_cons hpos, hinside, if_false]

theorem seek_cons {c : Char} {line : Line} {start offset : Nat} (p : Position)
    (hstart : line.offset = start + c.utf8Size) (h : start + c.utf8Size ≤ offset)
    (lines : List Line) :
    seek p ⟨start, c :: line.chars⟩ lines offset =
      seek ⟨p.line, p.column + 1⟩ line lines offset := by
  cases lines with
  | nil => exact placeOn_cons p hstart h
  | cons next lines => rw [seek, seek, placeOn_cons p hstart h]

/-- Going from line to line leads to the same place as going from character to character. -/
theorem seek_split {cs : List Char} {start offset : Nat} (p : Position) (hstart : start ≤ offset)
    (hend : offset ≤ start + utf8Len cs) :
    seek p (split start cs).1 (split start cs).2 offset = p.atByte cs (offset - start) := by
  induction cs generalizing start p with
  | nil =>
    obtain rfl : offset = start := by
      rw [utf8Len_nil] at hend
      omega
    exact placeOn_start p [] offset
  | cons c cs ih =>
    have hpos := c.utf8Size_pos
    rw [utf8Len_cons] at hend
    rcases Nat.eq_or_lt_of_le hstart with rfl | hlt
    · rw [seek_of_lt fun next hnext => lt_offset_split hnext, Nat.sub_self, Position.atByte_zero]
      by_cases hc : c = '\n'
      · rw [hc, split_newline, placeOn_start]
      · rw [split_cons hc, placeOn_start]
    by_cases hfits : start + c.utf8Size ≤ offset
    · have hbytes : offset - start = c.utf8Size + (offset - (start + c.utf8Size)) := by omega
      rw [hbytes, Position.atByte_cons]
      by_cases hc : c = '\n'
      · subst hc
        rw [split_newline, seek, offset_split, if_pos (show start + 1 ≤ offset from hlt)]
        exact ih _ hlt (hend.trans_eq (by rw [Nat.add_assoc, Nat.add_comm 1]; rfl))
      · rw [split_cons hc, seek_cons p (offset_split _ _) hfits, ih _ hfits (by omega)]
        simp [Position.next, hc]
    -- The offset is inside a character, which cannot be a line break.
    · have hc : c ≠ '\n' := by
        rintro rfl
        exact hfits hlt
      have hlater : ∀ next ∈ (split (start + c.utf8Size) cs).2, offset < next.offset :=
        fun next hnext => (Nat.lt_of_not_le hfits).trans (lt_offset_split hnext)
      rw [split_cons hc, seek_of_lt hlater, placeOn_inside p _ hlt (Nat.lt_of_not_le hfits),
        Position.atByte, if_neg (by omega), if_neg (by omega)]

theorem seek_eq {line : Line} {lines : List Line} {offset number : Nat} (p : Position)
    (hp : p.column = 1) (hnumber : number < (line :: lines).length)
    (upto : ∀ i (h : i < (line :: lines).length), i ≤ number → (line :: lines)[i].offset ≤ offset)
    (behind : ∀ i (h : i < (line :: lines).length), number < i →
      offset < (line :: lines)[i].offset) :
    seek p line lines offset =
      ⟨p.line + number, ((line :: lines)[number]).columnAt offset⟩ := by
  induction lines generalizing p line number with
  | nil =>
    obtain rfl : number = 0 := by simpa using hnumber
    exact placeOn_first hp line offset
  | cons next lines ih =>
    cases number with
    | zero =>
      have hnext : offset < next.offset := behind 1 (by simp) Nat.one_pos
      rw [seek, if_neg (Nat.not_le.2 hnext)]
      exact placeOn_first hp line offset
    | succ number =>
      have hnext : next.offset ≤ offset := upto 1 (by simp) (by omega)
      rw [seek, if_pos hnext, ih ⟨p.line + 1, 1⟩ rfl (by simpa using hnumber)]
      · simp only [List.getElem_cons_succ, Position.mk.injEq, and_true]
        omega
      · exact fun i h hi => upto (i + 1) (by simpa using h) (by omega)
      · exact fun i h hi => behind (i + 1) (by simpa using h) (by omega)

theorem lines_ofText (text : String) : (ofText text).lines =
    ((split 0 text.toList).1 :: (split 0 text.toList).2).toArray := rfl

theorem size_ofText (text : String) : (ofText text).size = text.utf8ByteSize := rfl

theorem cut_linesTo (text : String) (offset : Nat) :
    Cut (ofText text).lines offset ((ofText text).linesTo offset) := by
  refine cut_bisect ?_ 0 _ (Nat.le_refl _) (fun i _ hi => absurd hi (Nat.not_lt_zero i))
    (fun i h hi => absurd h (Nat.not_lt.2 hi)) (Nat.zero_le _)
  intro i j hj hij
  exact List.pairwise_iff_getElem.1 (sorted_split 0 text.toList) i j (hij.trans hj) hj hij

theorem linesTo_pos (text : String) (offset : Nat) : 0 < (ofText text).linesTo offset := by
  by_contra hzero
  have hfirst := (cut_linesTo text offset).behind 0 (by simp [lines_ofText]) (by omega)
  simp [lines_ofText, offset_split] at hfirst

theorem position_eq_search (text : String) (offset : Nat) :
    let inside := min offset text.utf8ByteSize
    ∃ line, (ofText text).lines[(ofText text).linesTo inside - 1]? = some line ∧
      (ofText text).position offset = ⟨(ofText text).linesTo inside, line.columnAt inside⟩ := by
  intro inside
  have hpos := linesTo_pos text inside
  have hlast : (ofText text).linesTo inside - 1 < (ofText text).lines.size := by
    have hinside := (cut_linesTo text inside).inside
    omega
  have hline := Array.getElem?_eq_getElem hlast
  refine ⟨_, hline, ?_⟩
  simp only [position, size_ofText]
  rw [hline]

/-- The table places an offset where one comes to from character to character. -/
theorem position_ofText (text : String) (offset : Nat) :
    (ofText text).position offset = Position.first.atByte text.toList offset := by
  obtain ⟨line, hline, hposition⟩ := position_eq_search text offset
  have hend : min offset text.utf8ByteSize ≤ 0 + utf8Len text.toList := by
    rw [String.utf8Len_toList, Nat.zero_add]
    exact min_le_right _ _
  rw [hposition, ← Position.atByte_min, String.utf8Len_toList]
  generalize min offset text.utf8ByteSize = inside at hline hend
  have hpos := linesTo_pos text inside
  have hcut := cut_linesTo text inside
  obtain ⟨hlast, rfl⟩ := Array.getElem?_eq_some_iff.1 hline
  have hseek := seek_eq Position.first rfl hlast
    (fun i h hi => hcut.upto i h (by omega)) (fun i h hi => hcut.behind i h (by omega))
  rw [seek_split _ (Nat.zero_le _) hend, Nat.sub_zero] at hseek
  rw [hseek]
  simp only [Position.first, Position.mk.injEq]
  exact ⟨by omega, rfl⟩

theorem finish_ofText (text : String) :
    (ofText text).finish = Position.first.after text.toList := by
  rw [finish, position_ofText, size_ofText, ← String.utf8Len_toList]
  exact Position.atByte_of_ge _ le_rfl

theorem position_of_ge {text : String} {offset : Nat} (h : text.utf8ByteSize ≤ offset) :
    (ofText text).position offset = (ofText text).finish := by
  rw [finish_ofText, position_ofText]
  exact Position.atByte_of_ge _ ((String.utf8Len_toList text).trans_le h)

theorem position_append (before rest : String) :
    (ofText (before ++ rest)).position before.utf8ByteSize =
      Position.first.after before.toList := by
  rw [position_ofText, String.toList_append, ← String.utf8Len_toList, Position.atByte_boundary]

theorem finish_eq (text : String) : (ofText text).finish =
    ⟨1 + text.toList.count '\n', 1 + (text.toList.rtakeWhile (· ≠ '\n')).length⟩ := by
  rw [finish_ofText, ← Position.column_after]
  exact congrArg (Position.mk · _) (Position.line_after .first text.toList)

theorem column_of_not_valid {text : String} {offset : Nat} (hle : offset ≤ text.utf8ByteSize)
    (h : ¬ String.Pos.Raw.IsValid text ⟨offset⟩) : ((ofText text).position offset).column = 1 := by
  rw [← String.utf8Len_toList] at hle
  rw [position_ofText]
  rcases boundary_or_inside hle with ⟨before, rest, htext, hlen⟩ |
    ⟨before, c, rest, inner, htext, hlen, hpos, hlt⟩
  · refine absurd (String.Pos.Raw.isValid_iff_exists_append.2
      ⟨String.ofList before, String.ofList rest, ?_, ?_⟩) h
    · rw [← String.ofList_append, ← htext, String.ofList_toList]
    · rw [← hlen]
      exact String.Pos.Raw.ext (String.utf8ByteSize_ofList before).symm
  · rw [htext, ← hlen, Position.atByte_inside _ before rest hpos hlt]

/-- Places of offsets between characters are in the order of the offsets. -/
theorem position_before {text : String} {i j : Nat} (hi : String.Pos.Raw.IsValid text ⟨i⟩)
    (hj : String.Pos.Raw.IsValid text ⟨j⟩) (hlt : i < j) :
    ((ofText text).position i).Before ((ofText text).position j) := by
  obtain ⟨before, rest, htext, hbefore⟩ := String.Pos.Raw.isValid_iff_exists_append.1 hi
  obtain ⟨longer, rest', htext', hlonger⟩ := String.Pos.Raw.isValid_iff_exists_append.1 hj
  obtain rfl : i = before.utf8ByteSize := congrArg String.Pos.Raw.byteIdx hbefore
  obtain rfl : j = longer.utf8ByteSize := congrArg String.Pos.Raw.byteIdx hlonger
  have hchars : before.toList ++ rest.toList = longer.toList ++ rest'.toList := by
    rw [← String.toList_append, ← String.toList_append, ← htext, htext']
  have hi' : (ofText text).position before.utf8ByteSize = Position.first.after before.toList := by
    rw [htext, position_append]
  have hj' : (ofText text).position longer.utf8ByteSize = Position.first.after longer.toList := by
    rw [htext', position_append]
  rw [hi', hj']
  rw [← String.utf8Len_toList, ← String.utf8Len_toList] at hlt
  rcases List.append_eq_append_iff.1 hchars with ⟨more, hmore, -⟩ | ⟨more, hmore, -⟩
  · rw [hmore, Position.after_append]
    refine Position.before_after _ ?_
    rintro rfl
    rw [hmore, List.append_nil] at hlt
    exact absurd hlt (lt_irrefl _)
  · rw [hmore, utf8Len_append] at hlt
    omega

end LineTable

/-- Whether a place is the one of a byte offset: the line counts the line breaks among the bytes
before it, 10 being the byte of a line break. Between two characters the column counts the
characters behind the last line break, and inside a character it is the first one. -/
structure Position.IsPlaceOf (p : Position) (text : String) (offset : Nat) : Prop where
  line : p.line = 1 + (text.toByteArray.data.toList.take offset).count 10
  boundary : ∀ before rest, text = before ++ rest → before.utf8ByteSize = offset →
    p = ⟨1 + before.toList.count '\n', 1 + (before.toList.rtakeWhile (· ≠ '\n')).length⟩
  inside : ¬ String.Pos.Raw.IsValid text ⟨offset⟩ → p.column = 1

theorem LineTable.isPlaceOf_position (text : String) {offset : Nat}
    (h : offset ≤ text.utf8ByteSize) : ((ofText text).position offset).IsPlaceOf text offset := by
  refine ⟨?_, ?_, column_of_not_valid h⟩
  · rw [position_ofText, Position.line_atByte, bytes_eq]
    rfl
  · rintro before rest rfl rfl
    rw [position_append, ← finish_ofText, finish_eq]

/-- The line table of a text is right at every byte offset; those past the end count as the end.
The search always ends at a line of the table. Between characters, later offsets have later places
and different offsets different ones. -/
theorem positions_right_at_every_offset (text : String) :
    let table := LineTable.ofText text
    (∀ offset,
      let inside := min offset text.utf8ByteSize
      (table.position offset).IsPlaceOf text inside ∧
      0 < table.linesTo inside ∧
      ∃ line, table.lines[table.linesTo inside - 1]? = some line ∧
        table.position offset = ⟨table.linesTo inside, line.columnAt inside⟩) ∧
    (∀ i j, String.Pos.Raw.IsValid text ⟨i⟩ → String.Pos.Raw.IsValid text ⟨j⟩ →
      (i < j → (table.position i).Before (table.position j)) ∧
      (table.position i = table.position j → i = j)) ∧
    ∀ offset, text.utf8ByteSize ≤ offset → table.position offset = table.finish := by
  intro table
  refine ⟨fun offset => ?_, fun i j hi hj => ?_, fun offset => LineTable.position_of_ge⟩
  · refine ⟨?_, LineTable.linesTo_pos text _, LineTable.position_eq_search text offset⟩
    have hplace := LineTable.isPlaceOf_position text (min_le_right offset text.utf8ByteSize)
    rw [LineTable.position_ofText, ← String.utf8Len_toList, Position.atByte_min] at hplace
    rwa [LineTable.position_ofText, ← String.utf8Len_toList]
  · refine ⟨LineTable.position_before hi hj, fun heq => ?_⟩
    rcases Nat.lt_trichotomy i j with hlt | rfl | hgt
    · exact absurd heq (LineTable.position_before hi hj hlt).ne
    · rfl
    · exact absurd heq.symm (LineTable.position_before hj hi hgt).ne

/-- The byte between the two of an accented letter on the second line, and what is past the end. -/
theorem positions_right_inside_letter :
    ¬ String.Pos.Raw.IsValid "a\né" ⟨3⟩ ∧ ((LineTable.ofText "a\né").position 3).column = 1 ∧
      (LineTable.ofText "a\né").position 9 = (LineTable.ofText "a\né").finish := by
  have hinside : ¬ String.Pos.Raw.IsValid "a\né" ⟨3⟩ :=
    String.Pos.Raw.isValid_eq_false_iff.1 (by decide)
  obtain ⟨hplaces, -, hend⟩ := positions_right_at_every_offset "a\né"
  exact ⟨hinside, (hplaces 3).1.inside hinside, hend 9 (by decide)⟩

end Scriptlet

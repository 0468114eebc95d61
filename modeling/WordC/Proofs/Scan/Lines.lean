import WordC.Proofs.Asm.ReadBack
import WordC.Proofs.Scan.Spacing
/-!
The lines of a text.

`IsLine` cuts one line out of a text and gives its number by the newlines in front of it.
Counting newlines up to a place and splitting the whole text agree on what this line is:
the place behind the first bytes of a text lies in the line of its number, and the line
is the piece of that number.
-/

namespace WordC
namespace Text

/-- The text has this line, with this number, between what stands above and below. -/
structure IsLine (t : Text) (number : Nat) (above line below : Text) : Prop where
  parts : t = above ++ (line ++ below)
  number : number = 1 + above.count Byte.newline
  single : Byte.newline ∉ line
  starts : ∀ b ∈ above.getLast?, b = Byte.newline
  ends : ∀ b ∈ below.head?, b = Byte.newline

/-- A separator in front is a step to the next piece. -/
theorem getElem?_splitOn_cons {b : UInt8} {rest : Text} {k : Nat} (sep : UInt8)
    (h : b ≠ sep → 0 < k) :
    (splitOn sep (b :: rest))[if b = sep then k + 1 else k]? = (splitOn sep rest)[k]? := by
  rw [splitOn]
  by_cases hb : b = sep
  · rw [if_pos hb, if_pos hb, List.getElem?_cons_succ]
  · obtain ⟨j, rfl⟩ : ∃ j, k = j + 1 := ⟨k - 1, by have := h hb; omega⟩
    rw [if_neg hb, if_neg hb]
    cases hrest : splitOn sep rest with
    | nil => exact absurd hrest (splitOn_ne_nil sep rest)
    | cons piece pieces => rfl

/-- The pieces between newlines are the lines. -/
theorem getElem?_splitOn {above line below : Text} (hline : Byte.newline ∉ line)
    (habove : ∀ b ∈ above.getLast?, b = Byte.newline)
    (hbelow : ∀ b ∈ below.head?, b = Byte.newline) :
    (splitOn Byte.newline (above ++ (line ++ below)))[above.count Byte.newline]? = some line := by
  induction above with
  | nil =>
    cases below with
    | nil =>
      rw [List.append_nil, List.nil_append, Asm.splitOn_of_not_mem hline]
      rfl
    | cons b below =>
      rw [hbelow b rfl, List.nil_append, Asm.splitOn_append hline]
      rfl
  | cons b above ih =>
    -- a byte that is no newline is not the last one, so a newline follows it
    have hlast : ∀ c ∈ above.getLast?, c = Byte.newline := fun c hc => habove c (by
      rw [List.getLast?_cons, Option.mem_def.1 hc]
      rfl)
    have hpos : b ≠ Byte.newline → 0 < above.count Byte.newline := by
      intro hb
      rw [List.count_pos_iff]
      cases hab : above.getLast? with
      | none => exact absurd (habove b (by simp [List.getLast?_cons, hab])) hb
      | some c =>
        rw [← hlast c hab]
        exact List.mem_of_getLast? hab
    rw [List.cons_append, List.count_cons, ← ih hlast, ← getElem?_splitOn_cons _ hpos]
    congr 1
    by_cases hb : b = Byte.newline
    · simp [hb]
    · simp [hb]

theorem IsLine.getElem?_splitOn {t above line below : Text} {number : Nat}
    (h : t.IsLine number above line below) :
    (t.splitOn Byte.newline)[number - 1]? = some line := by
  rw [h.parts, h.number, Nat.add_sub_cancel_left]
  exact Text.getElem?_splitOn h.single h.starts h.ends

theorem IsLine.number_le {t above line below : Text} {number : Nat}
    (h : t.IsLine number above line below) : number ≤ (t.splitOn Byte.newline).length := by
  have hlt := (List.getElem?_eq_some_iff.1 h.getElem?_splitOn).1
  have hnumber := h.number
  omega

/-- A text ends in a line that starts at its `lineStart`. -/
theorem exists_lastLine (t : Text) :
    ∃ above line, t = above ++ line ∧ Byte.newline ∉ line ∧
      (∀ b ∈ above.getLast?, b = Byte.newline) ∧ t.lineStart = above.length := by
  have hparts : t.reverse.takeWhile (· != Byte.newline) ++
      t.reverse.dropWhile (· != Byte.newline) = t.reverse := List.takeWhile_append_dropWhile
  refine ⟨(t.reverse.dropWhile (· != Byte.newline)).reverse,
    (t.reverse.takeWhile (· != Byte.newline)).reverse, ?_, fun hmem => ?_, fun b hb => ?_, ?_⟩
  · rw [← List.reverse_append, hparts, List.reverse_reverse]
  · simpa using List.all_eq_true.1 List.all_takeWhile _ (List.mem_reverse.1 hmem)
  · rw [List.getLast?_reverse] at hb
    have hstop := List.head?_dropWhile_not (· != Byte.newline) t.reverse
    rw [Option.mem_def.1 hb] at hstop
    simpa using hstop
  · have hlength := congrArg List.length hparts
    rw [List.length_append, List.length_reverse] at hlength
    rw [lineStart, List.length_reverse]
    omega

/-- A place in a text lies in the line of its number, and its column counts from the start of
the line. -/
theorem exists_isLine (before rest : Text) :
    ∃ above line below, (before ++ rest).IsLine (Place.behind before).line above line below ∧
      above.length + (Place.behind before).column = before.length + 1 ∧
      before.length ≤ above.length + line.length := by
  obtain ⟨above, head, hbefore, hhead, habove, hstart⟩ := exists_lastLine before
  obtain ⟨tail, below, hrest, htail, hbelow⟩ := Token.exists_of_line rest
  have hlength : before.length = above.length + head.length := by
    rw [hbefore, List.length_append]
  refine ⟨above, head ++ tail, below, ⟨?_, ?_, ?_, habove, hbelow⟩, ?_, ?_⟩
  · rw [hbefore, hrest, List.append_assoc, List.append_assoc]
  · rw [Place.behind, hbefore, List.count_append, List.count_eq_zero_of_not_mem hhead]
    rfl
  · exact fun hmem => (List.mem_append.1 hmem).elim hhead htail
  · have hcolumn : (Place.behind before).column = before.length - before.lineStart + 1 := rfl
    rw [hcolumn, hstart]
    omega
  · rw [List.length_append]
    omega

/-- What `dropRight` drops is all of one byte, and it drops all that is at the end. -/
theorem exists_dropRight (b : UInt8) (t : Text) :
    ∃ k, t = dropRight b t ++ List.replicate k b ∧ (dropRight b t).getLast? ≠ some b := by
  have hparts : t.reverse.takeWhile (· = b) ++ t.reverse.dropWhile (· = b) = t.reverse :=
    List.takeWhile_append_dropWhile
  have hdropped : t.reverse.takeWhile (· = b) =
      List.replicate (t.reverse.takeWhile (· = b)).length b :=
    List.eq_replicate_of_mem fun c hc => by
      simpa using List.all_eq_true.1 List.all_takeWhile c hc
  refine ⟨(t.reverse.takeWhile (· = b)).length, ?_, fun hlast => ?_⟩
  · rw [dropRight, ← List.reverse_replicate, ← hdropped, ← List.reverse_append, hparts,
      List.reverse_reverse]
  · rw [dropRight, List.getLast?_reverse] at hlast
    have hstop := List.head?_dropWhile_not (· = b) t.reverse
    rw [hlast] at hstop
    simp at hstop

/-- A positive number has at most as many digits as its value. -/
theorem length_ofNat_le {n : Nat} (h : 0 < n) : (ofNat n).length ≤ n := by
  rw [ofNat, digits, List.length_map, Nat.length_toDigits_le_iff (by decide) h]
  exact Nat.lt_pow_self (by decide)

theorem ofInt_natCast (n : Nat) : ofInt n = ofNat n := by
  rw [ofInt, signed, if_neg (by omega), Int.natAbs_natCast]
  rfl

end Text
end WordC

import WordC.Proofs.Codegen.Emitted
import WordC.Proofs.Codegen.FrameSize
import WordC.Proofs.Codegen.Listing
/-!
The frame that a function reserves for its locals.

The prologue subtracts the size of the frame from the stack pointer, and nothing else in
a function subtracts from it.  The size is a word.  It is right for less than `2 ^ 60 - 1`
slots.  From there on it depends on the remainder of the slots by `2 ^ 61`, and it may be
too small for the locals: a frame of `2 ^ 61` slots reserves nothing at all.
-/

namespace WordC
namespace Asm

/-- The number that a line subtracts from a register. -/
def Line.subtracted? (r : Register) : Line → Option Word
  | .instruction ⟨.arith .sub, [target, amount]⟩ =>
    match target.form, amount.form with
    | .register r', .immediate value => if r' = r then some value else none
    | _, _ => none
  | _ => none

/-- The numbers that lines subtract from a register. -/
def subtracted (r : Register) (lines : List Line) : List Word :=
  lines.filterMap (Line.subtracted? r)

/-- The bytes that lines take from the stack pointer. -/
def reservedBytes (lines : List Line) : Int := ((subtracted .rsp lines).map Int64.toInt).sum

theorem subtracted_append (r : Register) (xs ys : List Line) :
    subtracted r (xs ++ ys) = subtracted r xs ++ subtracted r ys :=
  List.filterMap_append

end Asm

namespace Frame

/-- The bytes that are reserved for so many slots.  Slots that differ by `2 ^ 61` take the
same number of bytes, and nothing is reserved where rounding up leaves the words. -/
def bytes (slots : Nat) : Nat :=
  if slots % 2 ^ 61 < 2 ^ 60 - 1 then 16 * ((slots % 2 ^ 61 + 1) / 2) else 0

theorem sixteen_dvd_bytes (slots : Nat) : 16 ∣ bytes slots := by
  rw [bytes]
  split
  · exact Nat.dvd_mul_right 16 _
  · exact Nat.dvd_zero 16

theorem le_bytes {slots : Nat} (h : slots < 2 ^ 60 - 1) : 8 * slots ≤ bytes slots := by
  have hmod : slots % 2 ^ 61 = slots := Nat.mod_eq_of_lt (by omega)
  rw [bytes, hmod, if_pos h]
  omega

theorem ofNat_eight_mul (slots : Nat) :
    Int64.ofNat (8 * slots) = Int64.ofNat (8 * (slots % 2 ^ 61)) := by
  have hsplit : 8 * slots = 8 * (slots % 2 ^ 61) + 2 ^ 64 * (slots / 2 ^ 61) := by omega
  have hzero : Int64.ofNat (2 ^ 64) = 0 := rfl
  rw [hsplit, Int64.ofNat_add, Int64.ofNat_mul (2 ^ 64), hzero, Int64.zero_mul, Int64.add_zero]

/-- The size of a frame, where it is positive. -/
theorem size_cases (f : Frame) :
    (0 < f.size ∧ f.size.toInt = bytes f.slots) ∨ ¬ 0 < f.size ∧ bytes f.slots = 0 := by
  have hrest : f.slots % 2 ^ 61 < 2 ^ 61 := Nat.mod_lt _ (by decide)
  rw [bytes, size_eq_alignUp, ofNat_eight_mul]
  generalize f.slots % 2 ^ 61 = m at hrest
  -- up to here the bytes and the fifteen that rounding adds are still a word
  by_cases hm : m < 2 ^ 60 - 1
  · rw [if_pos hm, Word.alignUp_ofNat (by omega), Int64.lt_iff_toInt_lt,
      Int64.toInt_ofNat_of_lt (by omega)]
    change (0 < (_ : Int) ∧ _) ∨ ¬ 0 < (_ : Int) ∧ _
    omega
  · rw [if_neg hm]
    exact .inr ⟨Word.not_pos_alignUp (by omega) (by omega), rfl⟩

/-- All the locals lie in so many bytes if the last one does. -/
theorem offset_le_iff {f : Frame} (h : f.Sound) (bound : Int) (hbound : 0 ≤ bound) :
    (∀ x ∈ f.names, (offset (f.names.idxOf x) : Int) ≤ bound) ↔ 8 * f.names.length ≤ bound := by
  constructor
  · intro hcovered
    by_cases hempty : f.names = []
    · rw [hempty]
      exact hbound
    · have hpos := List.length_pos_iff.2 hempty
      have hlast : f.names.length - 1 < f.names.length := by omega
      have hoffset := hcovered _ (List.getElem_mem hlast)
      rw [List.Nodup.idxOf_getElem h.1, offset, wordSize] at hoffset
      omega
  · intro hlength x hx
    have hindex := List.idxOf_lt_length_iff.2 hx
    rw [offset, wordSize]
    omega

end Frame

namespace Codegen

open Asm

theorem subtracted?_of_emitted {slot : Text → Nat} {names : List Text} {l : Line}
    (h : Emitted slot names l) :
    l.subtracted? .rsp = none ∧
      ∀ v ∈ l.subtracted? .rax, ∃ x ∈ names, v = Int64.ofNat (Frame.offset (slot x)) := by
  cases h with
  | fixed hl =>
    have hfixed : ∀ l ∈ fixedLines, l.subtracted? .rsp = none ∧ l.subtracted? .rax = none := by
      decide
    obtain ⟨hrsp, hrax⟩ := hfixed l hl
    rw [hrax]
    exact ⟨hrsp, nofun⟩
  | place hx => exact ⟨rfl, fun v hv => ⟨_, hx, (Option.some.inj hv).symm⟩⟩
  | @jump m hm label =>
    cases m with
    | arith f => cases hm
    | _ => exact ⟨rfl, nofun⟩
  | _ => exact ⟨rfl, nofun⟩

section Function

variable {slot : Text → Nat} {names : List Text} {body : List Site} (h : Emits slot names body)
  (entry : Text) (frame : Frame)

include h

theorem reservedBytes_function :
    reservedBytes (functionLines entry frame body) = Frame.bytes frame.slots := by
  have hbody : subtracted .rsp (body.map Site.line) = [] :=
    List.filterMap_eq_nil_iff.2 fun l hl => (subtracted?_of_emitted (h l hl)).1
  have hlines : subtracted .rsp (functionLines entry frame body) =
      if 0 < frame.size then [frame.size] else [] := by
    rw [functionLines, subtracted_append, subtracted_append, hbody, prologue, subtracted_append]
    split
    · rfl
    · rfl
  rw [reservedBytes, hlines]
  rcases frame.size_cases with ⟨hpos, hsize⟩ | ⟨hpos, hsize⟩
  · rw [if_pos hpos, ← hsize]
    exact Int.add_zero _
  · rw [if_neg hpos, hsize]
    rfl

theorem subtracted_function :
    ∀ v ∈ subtracted .rax (functionLines entry frame body),
      ∃ x ∈ names, v = Int64.ofNat (Frame.offset (slot x)) := by
  have hprologue : subtracted .rax (prologue entry frame) = [] := by
    rw [prologue, subtracted_append]
    split
    · rfl
    · rfl
  have hepilogue : subtracted .rax epilogue = [] := rfl
  intro v hv
  rw [functionLines, subtracted_append, subtracted_append, hprologue, hepilogue, List.nil_append,
    List.append_nil] at hv
  obtain ⟨l, hl, hlv⟩ := List.mem_filterMap.1 hv
  exact (subtracted?_of_emitted (h l hl)).2 v hlv

end Function

end Codegen

open Asm Codegen

/-- The frame of a generated function.  The prologue reserves a multiple of sixteen bytes, and
the code reaches for the slots of its locals only.  The locals all lie in the frame if
their last slot does, and this is so for less than `2 ^ 60 - 1` slots. -/
theorem generated_frame_exact {p : Program} {settings : Settings} {code : Text}
    (h : p.generate settings = .ok code) :
    ∃ lines s, run settings.withDefaults p = .ok lines s ∧ code = render lines ∧
      s.frame.capacity = settings.frameSlots ∧
      reservedBytes lines = Frame.bytes s.frame.slots ∧ 16 ∣ reservedBytes lines ∧
      (∀ v ∈ subtracted .rax lines,
        ∃ x ∈ s.frame.names, v = Int64.ofNat (Frame.offset (s.frame.names.idxOf x))) ∧
      ((∀ x ∈ s.frame.names, (Frame.offset (s.frame.names.idxOf x) : Int) ≤ reservedBytes lines) ↔
        8 * s.frame.names.length ≤ reservedBytes lines) ∧
      (s.frame.slots < 2 ^ 60 - 1 → ∀ x ∈ s.frame.names,
        (Frame.offset (s.frame.names.idxOf x) : Int) ≤ reservedBytes lines) := by
  obtain ⟨s, -, hrun, rfl⟩ := generate_programLines h
  obtain ⟨-, hgrows⟩ := run_ok hrun
  have hsound := hgrows.sound (Frame.sound_empty _)
  have hemits : Emits s.frame.names.idxOf s.frame.names
      (bodySites settings.withDefaults s.frame.names.idxOf p) :=
    emits_bodySites settings.withDefaults p hgrows.holds
  have hreserved : reservedBytes (programLines settings.withDefaults p s.frame) =
      Frame.bytes s.frame.slots := reservedBytes_function hemits _ s.frame
  have hcovered := Frame.offset_le_iff hsound (Frame.bytes s.frame.slots) (Int.natCast_nonneg _)
  refine ⟨_, s, hrun, rfl, hgrows.capacity, hreserved, ?_, subtracted_function hemits _ s.frame,
    ?_, ?_⟩
  · rw [hreserved]
    exact Int.natCast_dvd_natCast.2 (Frame.sixteen_dvd_bytes _)
  · rw [hreserved]
    exact hcovered
  · intro hslots
    rw [hreserved]
    refine hcovered.2 ?_
    have hnames := Frame.names_le_slots hsound
    have hbytes := Frame.le_bytes hslots
    omega

/-- Two locals. -/
def copying : Program := [.binary .assign (.ident (utf8 "a")) (.ident (utf8 "b"))]

/-- Of `2 ^ 61 + 3` slots there are four left, which is enough for two locals. -/
theorem copying_frame_exact :
    ∃ lines s, copying.generate ⟨[], 2305843009213693955, [], false⟩ = .ok (render lines) ∧
      run ⟨utf8 "main", 2305843009213693955, utf8 ".L", false⟩ copying = .ok lines s ∧
      s.frame.names = [utf8 "a", utf8 "b"] ∧ reservedBytes lines = 32 ∧
      ∀ x ∈ s.frame.names, (Frame.offset (s.frame.names.idxOf x) : Int) ≤ 32 := by
  have hgenerate : copying.generate ⟨[], 2305843009213693955, [], false⟩ = .ok _ := rfl
  obtain ⟨lines, s, hrun, hcode, hcapacity, hreserved, -, -, hcovered, -⟩ :=
    generated_frame_exact hgenerate
  have hnames : s.frame.names = [utf8 "a", utf8 "b"] := by
    cases hrun
    decide
  have hbytes : reservedBytes lines = 32 := by
    rw [hreserved, Frame.slots, hcapacity, hnames]
    decide
  rw [hbytes, hnames] at hcovered
  refine ⟨lines, s, congrArg _ hcode, hrun, hnames, hbytes, ?_⟩
  rw [hnames]
  exact hcovered.2 (by decide)

/-- A frame of `2 ^ 61` slots reserves nothing, and the locals lie below it. -/
theorem copying_uncovered :
    ∃ lines s, copying.generate ⟨[], 2305843009213693952, [], false⟩ = .ok (render lines) ∧
      run ⟨utf8 "main", 2305843009213693952, utf8 ".L", false⟩ copying = .ok lines s ∧
      reservedBytes lines = 0 ∧ subtracted .rax lines = [8, 16] := by
  refine ⟨_, _, rfl, rfl, ?_, ?_⟩
  · decide
  · decide

end WordC

import Mathlib
import WordC.Proofs.Codegen.Generate
/-!
The table of a frame's locals over any history of requests.

A table that is asked for slots again and again does well to keep two structures: a map
from names to slots, to find a name, and the list of the names in slot order, to number the
next one.  `SlotTable` is this table, and a `Frame` is its list alone.  Whatever the table
has been asked for, the two structures are the inverse of each other, and the frame gives the
same answers.  Since the list only grows at its end, a slot is never given away again, and
only a new name at a full table is refused.
-/

namespace WordC

open Codegen (Failure)

/-- What a table of slots is asked for. -/
inductive SlotRequest where
  | slot (name : Text)
  | offset (name : Text)
deriving Repr, DecidableEq

namespace SlotRequest

def name : SlotRequest → Text
  | slot name => name
  | offset name => name

/-- The answer that stands for a slot. -/
def value : SlotRequest → Nat → Nat
  | slot _, k => k
  | offset _, k => Frame.offset k

theorem value_injective (r : SlotRequest) : Function.Injective r.value := by
  intro k k' h
  cases r with
  | slot name => exact h
  | offset name =>
    have hoffset : wordSize * (k + 1) = wordSize * (k' + 1) := h
    rw [wordSize] at hoffset
    omega

end SlotRequest

/-- The answers to the requests, and what is left of the table `σ`.  A request that is
refused is answered too. -/
def serve {σ : Type} (answer : σ → SlotRequest → Except Failure Nat × σ) :
    List SlotRequest → σ → List (Except Failure Nat) × σ
  | [], s => ([], s)
  | r :: rest, s =>
    let answered := answer s r
    let served := serve answer rest answered.2
    (answered.1 :: served.1, served.2)

section Serve

variable {σ : Type} {answer : σ → SlotRequest → Except Failure Nat × σ}

theorem serve_append (rs rs' : List SlotRequest) (s : σ) :
    (serve answer (rs ++ rs') s).2 = (serve answer rs' (serve answer rs s).2).2 := by
  induction rs generalizing s with
  | nil => rfl
  | cons r rs ih => exact ih _

/-- Every request is answered by the table that the earlier ones have left. -/
theorem serve_getElem? (rs : List SlotRequest) (s : σ) (i : Nat) :
    (serve answer rs s).1[i]? =
      rs[i]?.map fun r => (answer (serve answer (rs.take i) s).2 r).1 := by
  induction rs generalizing s i with
  | nil => rfl
  | cons r rs ih =>
    cases i with
    | zero => rfl
    | succ i => exact ih _ i

end Serve

/-- The answer of a frame, and the frame afterwards. -/
def Frame.answer (f : Frame) (r : SlotRequest) : Except Failure Nat × Frame :=
  match f.lookup? r.name with
  | some (slot, f') => (.ok (r.value slot), f')
  | none => (.error (.exhausted r.name f.capacity), f)

/-- The locals of a frame in two structures. -/
structure SlotTable where
  /-- The most names the table takes; without a limit unless positive. -/
  capacity : Word
  slots : Std.HashMap Text Nat
  /-- The locals in slot order. -/
  names : List Text

namespace SlotTable

def empty (capacity : Word) : SlotTable := ⟨capacity, ∅, []⟩

def frame (t : SlotTable) : Frame := ⟨t.capacity, t.names⟩

/-- The table with a slot for one more name. -/
def extend (t : SlotTable) (name : Text) : SlotTable :=
  { t with slots := t.slots.insert name t.names.length, names := t.names ++ [name] }

/-- The slot of a name, which gets the next free one on first sight, and the table
afterwards. -/
def lookup (t : SlotTable) (name : Text) : Except Failure Nat × SlotTable :=
  match t.slots[name]? with
  | some slot => (.ok slot, t)
  | none =>
    if 0 < t.capacity && t.capacity.toInt ≤ t.names.length then
      (.error (.exhausted name t.capacity), t)
    else (.ok t.names.length, t.extend name)

/-- The distance of a name's slot from the frame base. -/
def offset (t : SlotTable) (name : Text) : Except Failure Nat × SlotTable :=
  let found := t.lookup name
  (found.1.map Frame.offset, found.2)

def answer (t : SlotTable) : SlotRequest → Except Failure Nat × SlotTable
  | .slot name => t.lookup name
  | .offset name => t.offset name

/-! ## One request -/

/-- What a request can do. -/
inductive Answers (t : SlotTable) (r : SlotRequest) : Except Failure Nat × SlotTable → Prop where
  | known {slot : Nat} : t.slots[r.name]? = some slot → Answers t r (.ok (r.value slot), t)
  | new : t.slots[r.name]? = none → t.frame.isFull = false →
      Answers t r (.ok (r.value t.names.length), t.extend r.name)
  | refused : t.slots[r.name]? = none → t.frame.isFull = true →
      Answers t r (.error (.exhausted r.name t.capacity), t)

theorem answer_eq (t : SlotTable) (r : SlotRequest) :
    t.answer r = ((t.lookup r.name).1.map r.value, (t.lookup r.name).2) := by
  cases r with
  | slot name =>
    change t.lookup name = ((t.lookup name).1.map id, (t.lookup name).2)
    cases t.lookup name with
    | mk found t' => cases found <;> rfl
  | offset name => rfl

theorem answers (t : SlotTable) (r : SlotRequest) : t.Answers r (t.answer r) := by
  rw [answer_eq, lookup]
  cases hslot : t.slots[r.name]? with
  | some slot => exact .known hslot
  | none =>
    dsimp only
    split
    · next hfull => exact .refused hslot hfull
    · next hfull => exact .new hslot (Bool.eq_false_iff.2 hfull)

/-- The two structures are the inverse of each other, and a limit is kept. -/
structure Orderly (t : SlotTable) (limit : Word) : Prop where
  capacity : t.capacity = limit
  nodup : t.names.Nodup
  inverse : ∀ (name : Text) (slot : Nat), t.slots[name]? = some slot ↔ t.names[slot]? = some name
  bounded : 0 < limit → (t.names.length : Int) ≤ limit.toInt

theorem isFull_iff (t : SlotTable) :
    t.frame.isFull = true ↔ 0 < t.capacity ∧ t.capacity.toInt ≤ t.names.length := by
  rw [Frame.isFull, Bool.and_eq_true, decide_eq_true_eq, decide_eq_true_eq]
  rfl

namespace Orderly

variable {t : SlotTable} {limit : Word}

theorem empty (limit : Word) : (SlotTable.empty limit).Orderly limit where
  capacity := rfl
  nodup := List.nodup_nil
  inverse name slot := by simp [SlotTable.empty]
  bounded hpos := Int.le_of_lt (Int64.lt_iff_toInt_lt.1 hpos)

theorem slots_eq_none_iff (h : t.Orderly limit) {name : Text} :
    t.slots[name]? = none ↔ name ∉ t.names := by
  rw [Option.eq_none_iff_forall_ne_some, List.mem_iff_getElem?, not_exists]
  exact forall_congr' fun slot => not_congr (h.inverse name slot)

theorem inverse_extend (h : t.Orderly limit) {name : Text} (hnew : name ∉ t.names)
    (other : Text) (slot : Nat) :
    (t.extend name).slots[other]? = some slot ↔ (t.extend name).names[slot]? = some other := by
  change (t.slots.insert name t.names.length)[other]? = some slot ↔
    (t.names ++ [name])[slot]? = some other
  rw [Std.HashMap.getElem?_insert, List.getElem?_append]
  by_cases hother : name = other
  · subst hother
    rw [if_pos (beq_self_eq_true name), Option.some_inj]
    split
    · next hslot =>
      refine ⟨fun heq => absurd heq (Nat.ne_of_gt hslot), fun hfound => ?_⟩
      exact absurd (List.mem_of_getElem? hfound) hnew
    · next hslot =>
      rw [List.getElem?_singleton]
      simp only [ite_eq_left_iff, reduceCtorEq, imp_false, Decidable.not_not]
      omega
  · rw [if_neg (by simpa using hother), h.inverse]
    split
    · exact Iff.rfl
    · next hslot =>
      rw [List.getElem?_eq_none (Nat.le_of_not_lt hslot), List.getElem?_singleton]
      simp [hother]

theorem extend (h : t.Orderly limit) {name : Text} (hnew : t.slots[name]? = none)
    (hroom : t.frame.isFull = false) : (t.extend name).Orderly limit := by
  have hname := h.slots_eq_none_iff.1 hnew
  refine ⟨h.capacity, ?_, h.inverse_extend hname, fun hpos => ?_⟩
  · exact List.nodup_append.2 ⟨h.nodup, List.nodup_singleton name, fun x hx y hy heq =>
      hname (List.mem_singleton.1 hy ▸ heq ▸ hx)⟩
  · have hfull : ¬ t.capacity.toInt ≤ t.names.length := fun hle =>
      Bool.eq_false_iff.1 hroom (t.isFull_iff.2 ⟨h.capacity ▸ hpos, hle⟩)
    rw [h.capacity] at hfull
    change ((t.names ++ [name]).length : Int) ≤ _
    rw [List.length_append, List.length_singleton]
    omega

end Orderly

namespace Answers

variable {t : SlotTable} {r : SlotRequest} {p : Except Failure Nat × SlotTable} {limit : Word}

theorem orderly (h : t.Answers r p) (ht : t.Orderly limit) : p.2.Orderly limit := by
  cases h with
  | known _ => exact ht
  | new hnew hroom => exact ht.extend hnew hroom
  | refused _ _ => exact ht

theorem names_isPrefix (h : t.Answers r p) : t.names <+: p.2.names := by
  cases h with
  | known _ => exact List.prefix_rfl
  | new _ _ => exact List.prefix_append _ _
  | refused _ _ => exact List.prefix_rfl

/-- A name that has been given a slot has it in the table. -/
theorem slot_of_ok (h : t.Answers r p) {slot : Nat} (hok : p.1 = .ok (r.value slot)) :
    p.2.slots[r.name]? = some slot := by
  cases h with
  | known hknown =>
    rwa [← r.value_injective (Except.ok.inj hok)]
  | new _ _ =>
    rw [← r.value_injective (Except.ok.inj hok)]
    exact Std.HashMap.getElem?_insert_self
  | refused _ _ => cases hok

/-- A name that is in the table has its slot as the answer. -/
theorem ok_of_slot (h : t.Answers r p) {slot : Nat} (hslot : t.slots[r.name]? = some slot) :
    p.1 = .ok (r.value slot) := by
  cases h with
  | known hknown => rw [Option.some.inj (hknown.symm.trans hslot)]
  | new hnew _ => cases hnew.symm.trans hslot
  | refused hnew _ => cases hnew.symm.trans hslot

theorem exists_value (h : t.Answers r p) {n : Nat} (hok : p.1 = .ok n) :
    ∃ slot, n = r.value slot := by
  cases h with
  | @known slot _ => exact ⟨slot, (Except.ok.inj hok).symm⟩
  | new _ _ => exact ⟨t.names.length, (Except.ok.inj hok).symm⟩
  | refused _ _ => cases hok

theorem eq_of_error (h : t.Answers r p) {e : Failure} (herror : p.1 = .error e) :
    e = .exhausted r.name t.capacity ∧ p.2 = t := by
  cases h with
  | known _ => cases herror
  | new _ _ => cases herror
  | refused _ _ => exact ⟨(Except.error.inj herror).symm, rfl⟩

theorem error_iff (h : t.Answers r p) (ht : t.Orderly limit) :
    (∃ e, p.1 = .error e) ↔
      0 < limit ∧ r.name ∉ t.names ∧ (t.names.length : Int) = limit.toInt := by
  have hfull := t.isFull_iff
  rw [ht.capacity] at hfull
  rw [← ht.slots_eq_none_iff]
  cases h with
  | known hknown => simp [hknown]
  | new _ hroom =>
    constructor
    · rintro ⟨_, herror⟩
      cases herror
    · rintro ⟨hpos, -, hlength⟩
      exact absurd (hfull.2 ⟨hpos, hlength.ge⟩) (Bool.eq_false_iff.1 hroom)
  | refused hnew h =>
    obtain ⟨hpos, hle⟩ := hfull.1 h
    exact ⟨fun _ => ⟨hpos, hnew, Int.le_antisymm (ht.bounded hpos) hle⟩, fun _ => ⟨_, rfl⟩⟩

end Answers

/-! ## The frame -/

theorem idxOf?_names {t : SlotTable} {limit : Word} (h : t.Orderly limit) (name : Text) :
    t.names.idxOf? name = t.slots[name]? := by
  refine Option.ext fun slot => ?_
  rw [h.inverse, List.idxOf?_eq_some_iff]
  constructor
  · rintro ⟨hslot, hname, -⟩
    exact List.getElem?_eq_some_iff.2 ⟨hslot, hname⟩
  · intro hname
    obtain ⟨hslot, hname⟩ := List.getElem?_eq_some_iff.1 hname
    refine ⟨hslot, hname, fun j hj heq => ?_⟩
    exact absurd (h.nodup.getElem_inj_iff.1 (heq.trans hname.symm)) (Nat.ne_of_lt hj)

/-- The list alone gives the same answer. -/
theorem frame_answer {t : SlotTable} {limit : Word} (h : t.Orderly limit) (r : SlotRequest) :
    t.frame.answer r = ((t.answer r).1, (t.answer r).2.frame) := by
  have hindex : t.frame.names.idxOf? r.name = t.slots[r.name]? := idxOf?_names h r.name
  have hanswers := t.answers r
  rw [Frame.answer, Frame.lookup?, hindex]
  generalize t.answer r = p at hanswers ⊢
  cases hanswers with
  | known hknown => rw [hknown]
  | new hnew hroom =>
    rw [hnew]
    dsimp only
    rw [if_neg (Bool.eq_false_iff.1 hroom)]
    rfl
  | refused hnew hfull =>
    rw [hnew]
    dsimp only
    rw [if_pos hfull]
    rfl

/-! ## Histories -/

section Histories

variable {t : SlotTable} {limit : Word}

theorem serve_orderly (rs : List SlotRequest) (h : t.Orderly limit) :
    (serve answer rs t).2.Orderly limit := by
  induction rs generalizing t with
  | nil => exact h
  | cons r rs ih => exact ih ((t.answers r).orderly h)

theorem serve_names_isPrefix (rs : List SlotRequest) (t : SlotTable) :
    t.names <+: (serve answer rs t).2.names := by
  induction rs generalizing t with
  | nil => exact List.prefix_rfl
  | cons r rs ih => exact (t.answers r).names_isPrefix.trans (ih _)

theorem serve_frame (rs : List SlotRequest) (h : t.Orderly limit) :
    serve Frame.answer rs t.frame = ((serve answer rs t).1, (serve answer rs t).2.frame) := by
  induction rs generalizing t with
  | nil => rfl
  | cons r rs ih =>
    have hrest := ih ((t.answers r).orderly h)
    rw [serve, frame_answer h r]
    dsimp only
    rw [hrest]
    rfl

/-- A slot is kept whatever is asked for. -/
theorem serve_slot (rs : List SlotRequest) (h : t.Orderly limit) {name : Text} {slot : Nat}
    (hslot : t.slots[name]? = some slot) : (serve answer rs t).2.slots[name]? = some slot := by
  rw [h.inverse] at hslot
  rw [(serve_orderly rs h).inverse]
  obtain ⟨more, hmore⟩ := serve_names_isPrefix rs t
  rw [← hmore, List.getElem?_append_left (List.getElem?_eq_some_iff.1 hslot).1, hslot]

theorem take_eq_of_getElem? {rs : List SlotRequest} {i j : Nat} (hij : i < j) {r : SlotRequest}
    (hr : rs[i]? = some r) : rs.take j = rs.take i ++ r :: (rs.take j).drop (i + 1) := by
  have hget : (rs.take j)[i]? = some r := by rwa [List.getElem?_take_of_lt hij]
  obtain ⟨hi, hget⟩ := List.getElem?_eq_some_iff.1 hget
  have hfirst : (rs.take j).take i = rs.take i := by rw [List.take_take, Nat.min_eq_left hij.le]
  rw [← hget, ← List.drop_eq_getElem_cons hi, ← hfirst, List.take_append_drop]

/-- A name that has been answered has its slot in every later table. -/
theorem slot_of_answered {rs : List SlotRequest} (h : t.Orderly limit) {i j : Nat} (hij : i < j)
    {r : SlotRequest} (hr : rs[i]? = some r) {slot : Nat}
    (hok : (serve answer rs t).1[i]? = some (.ok (r.value slot))) :
    (serve answer (rs.take j) t).2.slots[r.name]? = some slot := by
  rw [serve_getElem?, hr] at hok
  have hanswers := (serve answer (rs.take i) t).2.answers r
  have hfound := hanswers.slot_of_ok (Option.some.inj hok)
  have horderly := hanswers.orderly (serve_orderly (rs.take i) h)
  rw [take_eq_of_getElem? hij hr, serve_append]
  exact serve_slot _ horderly hfound

end Histories

theorem slot_of_refused {s : Codegen.State} {name : Text} (h : s.frame.lookup? name = none) :
    Codegen.slot name s = .error (.exhausted name s.frame.capacity) s := by
  refine (bind_of_ok rfl).trans ?_
  dsimp only
  rw [h]
  rfl

theorem slot_of_found {s : Codegen.State} {name : Text} {slot : Nat} {f : Frame}
    (h : s.frame.lookup? name = some (slot, f)) :
    ∃ s', Codegen.slot name s = .ok slot s' ∧ s'.frame = f := by
  by_cases hlength : s.frame.names.length < f.names.length
  · refine ⟨{ s with frame := f, events := .slotAssigned name slot :: s.events },
      (bind_of_ok rfl).trans ?_, rfl⟩
    dsimp only
    rw [h]
    dsimp only
    rw [if_pos hlength]
    rfl
  · refine ⟨s, (bind_of_ok rfl).trans ?_, (Frame.lookup?_same h hlength).symm⟩
    dsimp only
    rw [h]
    dsimp only
    rw [if_neg hlength]
    rfl

/-- The generator asks its frame.  A refusal leaves its state alone. -/
theorem slot_of_answer {s : Codegen.State} {name : Text} {found : Except Failure Nat} {f : Frame}
    (h : s.frame.answer (.slot name) = (found, f)) :
    (∀ slot, found = .ok slot → ∃ s', Codegen.slot name s = .ok slot s' ∧ s'.frame = f) ∧
      ∀ e, found = .error e → Codegen.slot name s = .error e s := by
  rw [Frame.answer] at h
  dsimp only [SlotRequest.name] at h
  cases hlookup : s.frame.lookup? name with
  | none =>
    rw [hlookup] at h
    cases h
    refine ⟨fun slot heq => ?_, fun e heq => ?_⟩
    · cases heq
    · cases heq
      exact slot_of_refused hlookup
  | some pair =>
    rw [hlookup] at h
    cases h
    refine ⟨fun slot heq => ?_, fun e heq => ?_⟩
    · cases heq
      exact slot_of_found hlookup
    · cases heq

section Answered

variable {limit : Word} {rs : List SlotRequest} {answers : List (Except Failure Nat)}
  {t : SlotTable} (h : serve answer rs (empty limit) = (answers, t))

include h

theorem name_of_answered {i slot : Nat} {r : SlotRequest} (hr : rs[i]? = some r)
    (hok : answers[i]? = some (.ok (r.value slot))) : t.names[slot]? = some r.name := by
  have hi : i < rs.length := (List.getElem?_eq_some_iff.1 hr).1
  have hanswers : (serve answer rs (empty limit)).1[i]? = some (.ok (r.value slot)) := by rwa [h]
  have hslot := slot_of_answered (.empty limit) hi hr hanswers
  rw [List.take_length, h] at hslot
  have horderly := serve_orderly rs (.empty limit)
  rw [h] at horderly
  exact (horderly.inverse _ _).1 hslot

/-- An answer is a slot of the table that is left, or its offset. -/
theorem exists_of_answered {i n : Nat} {r : SlotRequest} (hr : rs[i]? = some r)
    (hok : answers[i]? = some (.ok n)) :
    ∃ slot, n = r.value slot ∧ t.names[slot]? = some r.name := by
  have hanswers : answers = (serve answer rs (empty limit)).1 := by rw [h]
  have hvalue : ∃ slot, n = r.value slot := by
    rw [hanswers, serve_getElem?, hr] at hok
    exact (SlotTable.answers _ r).exists_value (Option.some.inj hok)
  obtain ⟨slot, rfl⟩ := hvalue
  exact ⟨slot, rfl, name_of_answered h hr hok⟩

end Answered

/-- A table that has been asked for anything is orderly: its names are distinct, the map
takes each of them to its index and nothing else to anything, and there are no more of them
than a limit allows.  What it has answered are the slots of the names, or their offsets, in
this table, so a slot that has been given once is given again whenever the name is asked
for, and different names are eight bytes apart or more.  A request is refused exactly if it
brings a new name when there are as many as a limit allows, and then the table stays as it
is.  The frame gives the same answers, and so does the generator, which asks it. -/
theorem served_table_orderly {limit : Word} {rs : List SlotRequest}
    {answers : List (Except Failure Nat)} {t : SlotTable}
    (h : serve answer rs (empty limit) = (answers, t)) :
    t.Orderly limit ∧
    (∀ (i n : Nat) (r : SlotRequest), rs[i]? = some r → answers[i]? = some (.ok n) →
      ∃ slot, n = r.value slot ∧ t.names[slot]? = some r.name) ∧
    (∀ (i j slot : Nat) (r r' : SlotRequest), i < j → rs[i]? = some r → rs[j]? = some r' →
      r'.name = r.name → answers[i]? = some (.ok (r.value slot)) →
      answers[j]? = some (.ok (r'.value slot))) ∧
    (∀ (i j slot slot' : Nat) (r r' : SlotRequest), rs[i]? = some r → rs[j]? = some r' →
      r'.name ≠ r.name → answers[i]? = some (.ok (r.value slot)) →
      answers[j]? = some (.ok (r'.value slot')) →
      Frame.offset slot + 8 ≤ Frame.offset slot' ∨ Frame.offset slot' + 8 ≤ Frame.offset slot) ∧
    (∀ r, ((∃ e, (t.answer r).1 = .error e) ↔
        0 < limit ∧ r.name ∉ t.names ∧ (t.names.length : Int) = limit.toInt) ∧
      ∀ e, (t.answer r).1 = .error e → e = .exhausted r.name limit ∧ (t.answer r).2 = t) ∧
    serve Frame.answer rs (.empty limit) = (answers, t.frame) ∧
    ∀ (s : Codegen.State) (name : Text), s.frame = t.frame →
      (∀ slot, (t.answer (.slot name)).1 = .ok slot →
        ∃ s', Codegen.slot name s = .ok slot s' ∧ s'.frame = (t.answer (.slot name)).2.frame) ∧
      ∀ e, (t.answer (.slot name)).1 = .error e → Codegen.slot name s = .error e s := by
  have ht : t = (serve answer rs (empty limit)).2 := by rw [h]
  have horderly : t.Orderly limit := ht ▸ serve_orderly rs (.empty limit)
  refine ⟨horderly, fun i n r hr hok => exists_of_answered h hr hok, ?_, ?_,
    fun r => ⟨(t.answers r).error_iff horderly, fun e he => ?_⟩, ?_, fun s name hs => ?_⟩
  · intro i j slot r r' hij hr hr' hname hok
    have hanswers : answers = (serve answer rs (empty limit)).1 := by rw [h]
    rw [hanswers] at hok
    have hslot := slot_of_answered (.empty limit) hij hr hok
    rw [← hname] at hslot
    rw [hanswers, serve_getElem?, hr']
    exact congrArg some ((SlotTable.answers _ r').ok_of_slot hslot)
  · intro i j slot slot' r r' hr hr' hname hok hok'
    have hslot := name_of_answered h hr hok
    have hslot' := name_of_answered h hr' hok'
    have hne : slot ≠ slot' := by
      rintro rfl
      exact hname (Option.some.inj (hslot'.symm.trans hslot))
    rw [Frame.offset, Frame.offset, wordSize]
    omega
  · rw [← horderly.capacity]
    exact (t.answers r).eq_of_error he
  · have hframe := serve_frame rs (Orderly.empty limit)
    rw [h] at hframe
    exact hframe
  · exact slot_of_answer (hs ▸ frame_answer horderly (.slot name))

/-- Three names are asked for where two have room, the first of them again and again. -/
def crowded : List SlotRequest :=
  [.slot (utf8 "a"), .offset (utf8 "b"), .slot (utf8 "a"), .slot (utf8 "c"), .offset (utf8 "a")]

def crowdedAnswers : List (Except Failure Nat) :=
  [.ok 0, .ok 16, .ok 0, .error (.exhausted (utf8 "c") 2), .ok 8]

theorem crowded_orderly :
    ∃ t, serve answer crowded (empty 2) = (crowdedAnswers, t) ∧ t.Orderly 2 ∧
      t.names = [utf8 "a", utf8 "b"] ∧ t.slots[utf8 "b"]? = some 1 ∧
      (t.answer (.offset (utf8 "c"))).1 = .error (.exhausted (utf8 "c") 2) ∧
      (t.answer (.offset (utf8 "c"))).2 = t := by
  obtain ⟨answers, t, h⟩ : ∃ answers t, serve answer crowded (empty 2) = (answers, t) :=
    ⟨_, _, rfl⟩
  obtain ⟨horderly, -, -, -, hrefused, hframe, -⟩ := served_table_orderly h
  have hrun : serve Frame.answer crowded (.empty 2) =
      (crowdedAnswers, ⟨2, [utf8 "a", utf8 "b"]⟩) := rfl
  obtain ⟨rfl, hfinal⟩ := Prod.mk.inj (hframe.symm.trans hrun)
  have hnames : t.names = [utf8 "a", utf8 "b"] := congrArg Frame.names hfinal
  obtain ⟨hiff, hkept⟩ := hrefused (.offset (utf8 "c"))
  obtain ⟨e, he⟩ := hiff.2 ⟨by decide, by rw [hnames]; decide, by rw [hnames]; decide⟩
  obtain ⟨rfl, hsame⟩ := hkept e he
  have hslot : t.slots[utf8 "b"]? = some 1 := (horderly.inverse _ _).2 (by rw [hnames]; rfl)
  exact ⟨t, h, horderly, hnames, hslot, he, hsame⟩

end SlotTable
end WordC

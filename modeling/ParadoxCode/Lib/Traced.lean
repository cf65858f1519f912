import ParadoxCode.Lib.Utf8

/-!
# Texts with origins

Every item has a run of characters and an origin. The runs make up a text, and a table has the
origin of each byte of it. The table has the origin of an item at the first byte of each character
of the item's run (`origins_first`) and at the last one (`origins_last`).
-/

namespace Traced

open Utf8

variable {α β : Type*} (run : α → List Char) (origin : α → β)

/-- The runs of the items. -/
def text (items : List α) : List Char := items.flatMap run

/-- The origins of the bytes of the text. -/
def origins (items : List α) : List β :=
  items.flatMap fun item => List.replicate (encode (run item)).length (origin item)

/-- The place in the text where the run of an item starts. -/
def place (items : List α) (index : Nat) : Nat := (text run (items.take index)).length

/-- A character of the text is one of the run of an item. -/
structure Holds (items : List α) (index i : Nat) : Prop where
  lt : index < items.length
  place_le : place run items index ≤ i
  lt_place : i < place run items (index + 1)

variable {run origin} {items : List α} {index index' i j : Nat}

theorem text_append (items items' : List α) : text run (items ++ items') =
    text run items ++ text run items' :=
  List.flatMap_append

theorem text_singleton (item : α) : text run [item] = run item := List.flatMap_singleton run item

theorem length_origins (items : List α) : (origins run origin items).length =
    (encode (text run items)).length := by
  unfold origins text
  induction items with
  | nil => rfl
  | cons item items ih =>
    rw [List.flatMap_cons, List.flatMap_cons, List.length_append, encode_append,
      List.length_append, ih, List.length_replicate]

theorem place_mono (h : index ≤ index') : place run items index ≤ place run items index' := by
  unfold place
  rw [← List.take_append_drop index (items.take index'), List.take_take,
    Nat.min_eq_left h, text_append, List.length_append]
  exact Nat.le_add_right _ _

theorem place_succ (h : index < items.length) :
    place run items (index + 1) = place run items index + (run items[index]).length := by
  unfold place
  rw [List.take_succ_eq_append_getElem h, text_append, text_singleton, List.length_append]

theorem place_length : place run items items.length = (text run items).length := by
  unfold place
  rw [List.take_length]

/-- Every character of the text is one of the run of an item. -/
theorem exists_holds (h : i < (text run items).length) : ∃ index, Holds run items index i := by
  have hbound : i < place run items items.length := by rwa [place_length]
  have hfind : ∃ index, i < place run items index := ⟨_, hbound⟩
  obtain ⟨hlt, hfirst⟩ := And.intro (Nat.find_spec hfind) fun k => Nat.find_min hfind (m := k)
  cases hindex : Nat.find hfind with
  | zero =>
    rw [hindex] at hlt
    exact absurd hlt (Nat.not_lt_zero i)
  | succ index =>
    rw [hindex] at hlt hfirst
    have hle : place run items index ≤ i := Nat.not_lt.mp (hfirst index (Nat.lt_succ_self index))
    refine ⟨index, Nat.not_le.mp fun hlen => ?_, hle, hlt⟩
    have hfull : place run items items.length ≤ place run items index := place_mono hlen
    omega

/-- The items of later characters are later ones. -/
theorem Holds.le (h : Holds run items index i) (h' : Holds run items index' j)
    (hle : i ≤ j) : index ≤ index' := by
  by_contra hlt
  have hmono : place run items (index' + 1) ≤ place run items index :=
    place_mono (Nat.not_le.mp hlt)
  have := h.place_le
  have := h'.lt_place
  omega

variable (run) in
theorem holds_place (h : index < items.length) (hrun : run items[index] ≠ []) :
    Holds run items index (place run items index) where
  lt := h
  place_le := le_rfl
  lt_place := by
    have hpos := List.length_pos_iff.mpr hrun
    rw [place_succ h]
    omega

/-! ## The table -/

theorem getElem?_origins {front back : List α} {item : α} {k : Nat}
    (h : k < (encode (run item)).length) :
    (origins run origin (front ++ item :: back))[(encode (text run front)).length + k]? =
      some (origin item) := by
  have hsplit : origins run origin (front ++ item :: back) = origins run origin front ++
      (List.replicate (encode (run item)).length (origin item) ++ origins run origin back) := by
    unfold origins
    rw [List.flatMap_append, List.flatMap_cons]
  rw [hsplit, List.getElem?_append_right (by rw [length_origins]; omega), length_origins,
    Nat.add_sub_cancel_left, List.getElem?_append_left (by rwa [List.length_replicate]),
    List.getElem?_replicate_of_lt h]

/-- A character of the text with what stands before it. -/
theorem Holds.split (h : Holds run items index i) : ∃ front middle c rest back,
    items = front ++ items.get ⟨index, h.lt⟩ :: back ∧ run (items.get ⟨index, h.lt⟩) =
      middle ++ c :: rest ∧ (text run items).take i = text run front ++ middle ∧
      (text run items).take (i + 1) = text run front ++ (middle ++ [c]) := by
  have hlt := h.lt
  have hplace : place run items index ≤ i := h.place_le
  have hnext : i < place run items index + (run items[index]).length := place_succ hlt ▸ h.lt_place
  have hitems : items = items.take index ++ items[index] :: items.drop (index + 1) := by
    rw [← List.drop_eq_getElem_cons hlt, List.take_append_drop]
  obtain ⟨k, rfl⟩ := Nat.exists_eq_add_of_le hplace
  have hk : k < (run items[index]).length := by omega
  have htext : text run items = text run (items.take index) ++
      (run items[index] ++ text run (items.drop (index + 1))) := by
    conv_lhs => rw [hitems]
    rw [text_append]
    rfl
  have hrun : run items[index] =
      (run items[index]).take k ++ (run items[index])[k] :: (run items[index]).drop (k + 1) := by
    rw [← List.drop_eq_getElem_cons hk, List.take_append_drop]
  refine ⟨_, _, _, _, _, hitems, hrun, ?_, ?_⟩
  · rw [htext]
    unfold place
    rw [List.take_length_add_append, List.take_append_of_le_length hk.le]
  · rw [htext]
    unfold place
    rw [Nat.add_assoc, List.take_length_add_append, List.take_append_of_le_length hk,
      List.take_succ_eq_append_getElem hk]

variable (origin) in
theorem origins_first (h : Holds run items index i) :
    (origins run origin items)[(encode ((text run items).take i)).length]? =
      some (origin (items.get ⟨index, h.lt⟩)) := by
  obtain ⟨front, middle, c, rest, back, hitems, hrun, hbefore, -⟩ := h.split
  rw [hbefore, encode_append, List.length_append]
  conv_lhs => rw [hitems]
  refine getElem?_origins ?_
  have hpos := length_encodeChar_pos c
  rw [hrun, encode_append, encode_cons, List.length_append, List.length_append]
  omega

variable (origin) in
theorem origins_last (h : Holds run items index i) :
    (origins run origin items)[(encode ((text run items).take (i + 1))).length - 1]? =
      some (origin (items.get ⟨index, h.lt⟩)) := by
  obtain ⟨front, middle, c, rest, back, hitems, hrun, -, hbehind⟩ := h.split
  have hpos := length_encodeChar_pos c
  have hlength : (encode (middle ++ [c])).length = (encode middle).length +
    (String.utf8EncodeChar c).length := by
    rw [encode_append, encode_cons, encode_nil, List.append_nil, List.length_append]
  rw [hbehind, encode_append, List.length_append, hlength, Nat.add_sub_assoc (by omega)]
  conv_lhs => rw [hitems]
  refine getElem?_origins ?_
  rw [hrun, encode_append, encode_cons, List.length_append, List.length_append]
  omega

end Traced

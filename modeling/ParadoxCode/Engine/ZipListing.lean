import ParadoxCode.Text

/-!
# Names of zip members

`zip_member_names` of `texture.rs`: the end record is looked for from the end of the file, and the
names are read from the directory that it describes. What the source would panic on has no value
here: an index or a slice outside of its bytes, or a sum that does not fit into 64 bits.
-/

namespace ParadoxCode.Engine.Zip

/-! ## The listing -/

def eocdSignature : List UInt8 := [0x50, 0x4b, 0x05, 0x06]

def centralSignature : List UInt8 := [0x50, 0x4b, 0x01, 0x02]

def centralHeader : Nat := 46

def eocdHeader : Nat := 22

def maxCentralDirectory : Nat := 16 * 1024 * 1024

/-- `checked_add` of `usize`. Where it is `none`, `+` overflows. -/
def checkedAdd (a b : Nat) : Option Nat := if a + b < 2 ^ 64 then some (a + b) else none

/-- `le16`, at a sum. -/
def le16 (bytes : List UInt8) (base delta : Nat) : Option Nat := do
  let offset ← checkedAdd base delta
  let low ← bytes[offset]?
  let high ← bytes[offset + 1]?
  some (low.toNat + 256 * high.toNat)

/-- `le32`, at a sum. -/
def le32 (bytes : List UInt8) (base delta : Nat) : Option Nat := do
  let low ← le16 bytes base delta
  let high ← le16 bytes base (delta + 2)
  some (low + 65536 * high)

/-- `bytes[offset..].starts_with(&signature)`. -/
def startsAt (bytes : List UInt8) (offset : Nat) (signature : List UInt8) : Option Bool :=
  if offset ≤ bytes.length then some (signature.isPrefixOf (bytes.drop offset)) else none

/-- Whether there is an end record at an index, with a comment that spans the rest. -/
def recordAt (window : List UInt8) (index : Nat) : Option Bool := do
  if ← startsAt window index eocdSignature then
    let comment ← le16 window index 20
    let stop ← checkedAdd (← checkedAdd index eocdHeader) comment
    some (stop == window.length)
  else some false

/-- The backward scan. -/
def scanBack (window : List UInt8) : Nat → Option (Option Nat)
  | 0 => do if ← recordAt window 0 then some (some 0) else some none
  | index + 1 => do if ← recordAt window (index + 1) then some (some (index + 1)) else
      scanBack window index

/-- `read_exact` behind a seek. -/
def readExact (file : List UInt8) (offset length : Nat) : Option (List UInt8) :=
  if offset + length ≤ file.length then some ((file.drop offset).take length) else none

/-- A member is listed if its name is UTF-8 and no directory. -/
def listedName (bytes : List UInt8) : Option Str :=
  match Utf8.fromUtf8 bytes with
  | .ok name => if name.getLast? = some '/' then none else some name
  | .error _ => none

/-- The loop over the directory. -/
def walk (directory : List UInt8) : Nat → Nat → List Str → Option (List Str)
  | 0, _, _ => none
  | fuel + 1, offset, names => do
    let header ← checkedAdd offset centralHeader
    if directory.length < header then some names
    else if !(← startsAt directory offset centralSignature) then some names
    else
      let nameLen ← le16 directory offset 28
      let extraLen ← le16 directory offset 30
      let commentLen ← le16 directory offset 32
      match (checkedAdd header nameLen).filter (· ≤ directory.length) with
      | none => some names
      | some nameEnd =>
        let names := names ++ (listedName ((directory.drop header).take nameLen)).toList
        match ((checkedAdd nameEnd extraLen).bind fun stop => checkedAdd stop commentLen).filter
            (· ≤ directory.length) with
        | none => some names
        | some next => walk directory fuel next names

/-- What is read behind the scan: the directory that the record at `eocd` describes. -/
def recordNames (file window : List UInt8) (eocd : Nat) : Option (List Str) := do
  let entries ← le16 window eocd 10
  let tableSize ← le32 window eocd 12
  let tableOffset ← le32 window eocd 16
  if entries = 0xFFFF ∨ tableSize = u32Max ∨ tableOffset = u32Max then some []
  else if maxCentralDirectory < tableSize ∨ file.length < min (tableOffset + tableSize) u32Max then
    some []
  else
    match readExact file tableOffset tableSize with
    | none => some []
    | some directory => walk directory (directory.length + 1) 0 []

/-- The end of the file that is scanned. -/
def windowOf (file : List UInt8) : List UInt8 := file.drop (file.length - (65536 + eocdHeader))

/-- `zip_member_names`. -/
def zipMemberNames (file : List UInt8) : Option (List Str) :=
  if file.length < eocdHeader then some []
  else do
    match ← scanBack (windowOf file) ((windowOf file).length - eocdHeader) with
    | none => some []
    | some eocd => recordNames file (windowOf file) eocd

/-! ## Directories and end records -/

/-- A number in two bytes. -/
def bytes16 (n : Nat) : List UInt8 := [UInt8.ofNat n, UInt8.ofNat (n / 256)]

/-- A number in four bytes. -/
def bytes32 (n : Nat) : List UInt8 := bytes16 n ++ bytes16 (n / 65536)

/-- The fixed part of a directory entry, with the lengths of name, extra field and comment. -/
def entryHeader (fixed attributes : List UInt8) (name extra comment : Nat) : List UInt8 :=
  centralSignature ++ fixed ++ (bytes16 name ++ (bytes16 extra ++ (bytes16 comment ++ attributes)))

/-- Bytes that begin with the header and the whole name of an entry. -/
structure Begins (bytes name rest : List UInt8) (extra comment : Nat) : Prop where
  name_small : name.length < 65536
  extra_small : extra < 65536
  comment_small : comment < 65536
  bytes_eq : ∃ fixed attributes : List UInt8, fixed.length = 24 ∧ attributes.length = 12 ∧
    bytes = entryHeader fixed attributes name.length extra comment ++ (name ++ rest)

/-- The names of a directory, entry by entry, as far as there are names in it. -/
inductive Listing : List UInt8 → List Str → Prop
  | stop {bytes : List UInt8} (h : ∀ name rest extra comment,
      ¬Begins bytes name rest extra comment) :
    Listing bytes []
  | cut {bytes name rest : List UInt8} {extra comment : Nat}
      (h : Begins bytes name rest extra comment)
    (hcut : rest.length < extra + comment) : Listing bytes (listedName name).toList
  | entry {bytes name rest : List UInt8} {extra comment : Nat} {names : List Str}
    (h : Begins bytes name rest extra comment) (hfits : extra + comment ≤ rest.length)
    (hrest : Listing (rest.drop (extra + comment)) names) :
      Listing bytes ((listedName name).toList ++ names)

/-- An end record, with the comment behind it. -/
structure EndRecord where
  disks : List UInt8
  entries : Nat
  size : Nat
  offset : Nat
  comment : List UInt8
  length_disks : disks.length = 6
  entries_small : entries < 65536
  size_small : size < 2 ^ 32
  offset_small : offset < 2 ^ 32
  comment_small : comment.length < 65536

namespace EndRecord

def bytes (record : EndRecord) : List UInt8 :=
  eocdSignature ++ record.disks ++ (bytes16 record.entries ++ (bytes32 record.size ++
    (bytes32 record.offset ++ (bytes16 record.comment.length ++ record.comment))))

/-- No field is all ones, and the directory is small and lies in the file. -/
structure Readable (record : EndRecord) (file : List UInt8) : Prop where
  entries : record.entries ≠ 0xFFFF
  size : record.size ≠ u32Max
  offset : record.offset ≠ u32Max
  small : record.size ≤ maxCentralDirectory
  inside : record.offset + record.size ≤ file.length

/-- The names of the directory that the fields of the record point to; none where they point to
none. -/
def Describes (record : EndRecord) (file : List UInt8) (names : List Str) : Prop :=
  (record.Readable file → Listing ((file.drop record.offset).take record.size) names) ∧
    (¬record.Readable file → names = [])

end EndRecord

section

variable {bytes front back : List UInt8} {n delta value : Nat}

@[simp] theorem length_bytes16 (n : Nat) : (bytes16 n).length = 2 := rfl

@[simp] theorem length_bytes32 (n : Nat) : (bytes32 n).length = 4 := rfl

theorem some_bind {α β : Type} (a : α) (f : α → Option β) : some a >>= f = f a := rfl

theorem checkedAdd_eq {a b : Nat} (h : a + b < 2 ^ 64) : checkedAdd a b = some (a + b) := if_pos h

theorem le16_at (n : Nat) (hdelta : delta = front.length) (hlength : front.length < 2 ^ 64) :
    le16 (front ++ (bytes16 n ++ back)) 0 delta = some (n % 65536) := by
  subst hdelta
  unfold le16
  rw [checkedAdd_eq (by omega), Nat.zero_add, some_bind, List.getElem?_append_right le_rfl,
    List.getElem?_append_right (Nat.le_succ _), Nat.sub_self, Nat.succ_sub le_rfl, Nat.sub_self]
  show some ((UInt8.ofNat n).toNat + 256 * (UInt8.ofNat (n / 256)).toNat) = some (n % 65536)
  rw [UInt8.toNat_ofNat', UInt8.toNat_ofNat']
  congr 1
  omega

theorem le32_at (hn : n < 2 ^ 32) (hdelta : delta = front.length)
    (hlength : front.length < 2 ^ 63) : le32 (front ++ (bytes32 n ++ back)) 0 delta = some n := by
  have hlow : le16 (front ++ (bytes32 n ++ back)) 0 delta = some (n % 65536) := by
    unfold bytes32
    rw [List.append_assoc, le16_at n hdelta (by omega)]
  have hhigh : le16 (front ++ (bytes32 n ++ back)) 0 (delta + 2) = some (n / 65536 % 65536) := by
    unfold bytes32
    rw [List.append_assoc, ← List.append_assoc front,
      le16_at (n / 65536) (by rw [List.length_append, hdelta, length_bytes16])
        (by rw [List.length_append, length_bytes16]; omega)]
  unfold le32
  rw [hlow, some_bind, hhigh, some_bind]
  congr 1
  omega

/-- The two bytes that a number was read from. -/
theorem drop_le16 (h : le16 bytes 0 delta = some value) :
    bytes.drop delta = bytes16 value ++ bytes.drop (delta + 2) ∧ value < 65536 := by
  unfold le16 at h
  obtain ⟨offset, hoffset, h⟩ := Option.bind_eq_some_iff.mp h
  obtain ⟨low, hlow, h⟩ := Option.bind_eq_some_iff.mp h
  obtain ⟨high, hhigh, h⟩ := Option.bind_eq_some_iff.mp h
  obtain rfl := Option.some.inj h
  unfold checkedAdd at hoffset
  split_ifs at hoffset
  obtain rfl := Option.some.inj hoffset
  rw [Nat.zero_add] at hlow hhigh
  obtain ⟨hlt, rfl⟩ := List.getElem?_eq_some_iff.mp hlow
  obtain ⟨hlt', rfl⟩ := List.getElem?_eq_some_iff.mp hhigh
  have hsmall := (bytes[delta]).toNat_lt
  have hsmall' := (bytes[delta + 1]).toNat_lt
  refine ⟨?_, by omega⟩
  rw [List.drop_eq_getElem_cons hlt, List.drop_eq_getElem_cons hlt']
  unfold bytes16
  rw [show (bytes[delta].toNat + 256 * bytes[delta + 1].toNat) / 256 =
    bytes[delta + 1].toNat by omega, UInt8.ofNat_toNat]
  congr 1
  refine UInt8.toNat_inj.mp ?_
  rw [UInt8.toNat_ofNat']
  omega

theorem drop_le32 (h : le32 bytes 0 delta = some value) :
    bytes.drop delta = bytes32 value ++ bytes.drop (delta + 4) ∧ value < 2 ^ 32 := by
  unfold le32 at h
  obtain ⟨low, hlow, h⟩ := Option.bind_eq_some_iff.mp h
  obtain ⟨high, hhigh, h⟩ := Option.bind_eq_some_iff.mp h
  obtain rfl := Option.some.inj h
  obtain ⟨hlow, hlt⟩ := drop_le16 hlow
  obtain ⟨hhigh, hlt'⟩ := drop_le16 hhigh
  refine ⟨?_, by omega⟩
  have hfront : bytes16 (low + 65536 * high) = bytes16 low := by
    unfold bytes16
    congr 1
    · refine UInt8.toNat_inj.mp ?_
      rw [UInt8.toNat_ofNat', UInt8.toNat_ofNat']
      omega
    · congr 1
      refine UInt8.toNat_inj.mp ?_
      rw [UInt8.toNat_ofNat', UInt8.toNat_ofNat']
      omega
  unfold bytes32
  rw [hfront, show (low + 65536 * high) / 65536 = high by omega, List.append_assoc, hlow, hhigh]

end

/-! ## What the end record describes -/

section

variable {bytes window file directory : List UInt8} {base delta offset index : Nat}

theorem exists_le16 (h : base + delta + 1 < bytes.length) (hlength : bytes.length < 2 ^ 64) :
    ∃ value, le16 bytes base delta = some value ∧ value < 65536 := by
  unfold le16
  rw [checkedAdd_eq (by omega), some_bind, List.getElem?_eq_getElem (by omega),
    List.getElem?_eq_getElem (by omega)]
  refine ⟨_, rfl, ?_⟩
  have hlow := (bytes[base + delta]).toNat_lt
  have hhigh := (bytes[base + delta + 1]).toNat_lt
  omega

theorem exists_le32 (h : base + delta + 3 < bytes.length) (hlength : bytes.length < 2 ^ 64) :
    ∃ value, le32 bytes base delta = some value := by
  obtain ⟨low, hlow, -⟩ := exists_le16 (show base + delta + 1 < bytes.length by omega) hlength
  obtain ⟨high, hhigh, -⟩ := exists_le16 (show base + (delta + 2) + 1 < bytes.length by omega)
    hlength
  unfold le32
  rw [hlow, hhigh]
  exact ⟨_, rfl⟩

theorem startsAt_eq {signature : List UInt8} (h : offset ≤ bytes.length) :
    startsAt bytes offset signature = some (signature.isPrefixOf (bytes.drop offset)) := if_pos h

/-- What is left of the window from a record on: it starts with the signature, and its comment spans
the rest. -/
def IsRecord (rest : List UInt8) : Prop :=
  eocdSignature.isPrefixOf rest = true ∧ ∃ comment, le16 rest 0 20 = some comment ∧
    eocdHeader + comment = rest.length

theorem le16_drop (h : base + delta < 2 ^ 64) : le16 (bytes.drop base) 0 delta =
    le16 bytes base delta := by
  unfold le16
  rw [checkedAdd_eq (by omega), checkedAdd_eq h]
  simp only [some_bind, List.getElem?_drop, Nat.zero_add, Nat.add_assoc]

theorem exists_recordAt (h : index + eocdHeader ≤ window.length)
    (hlength : window.length < 2 ^ 63) : ∃ answer, recordAt window index = some answer ∧
    (answer = true ↔ IsRecord (window.drop index)) := by
  unfold eocdHeader at h
  obtain ⟨comment, hcomment, hsmall⟩ := exists_le16 (show index + 20 + 1 < window.length by omega)
    (by omega)
  have hdrop : le16 (window.drop index) 0 20 = some comment := by
    rw [le16_drop (by omega), hcomment]
  unfold recordAt IsRecord
  rw [startsAt_eq (by omega), some_bind]
  split_ifs with hstarts
  · rw [hcomment, some_bind, checkedAdd_eq (by unfold eocdHeader; omega), some_bind,
      checkedAdd_eq (by unfold eocdHeader; omega), some_bind]
    refine ⟨_, rfl, ?_⟩
    rw [and_iff_right hstarts, hdrop, beq_iff_eq, List.length_drop]
    simp only [Option.some.injEq, exists_eq_left']
    unfold eocdHeader
    omega
  · exact ⟨false, rfl, iff_of_false Bool.false_ne_true fun hrecord => hstarts hrecord.1⟩

/-- The scan finds the last record. -/
theorem scanBack_spec (h : index + eocdHeader ≤ window.length) (hlength : window.length < 2 ^ 63) :
    (scanBack window index = some none ∧ ∀ place ≤ index, ¬IsRecord (window.drop place)) ∨
      ∃ found ≤ index, scanBack window index = some (some found) ∧ IsRecord (window.drop found) ∧
        ∀ place, found < place → place ≤ index → ¬IsRecord (window.drop place) := by
  induction index with
  | zero =>
    obtain ⟨answer, hanswer, hiff⟩ := exists_recordAt h hlength
    unfold scanBack
    rw [hanswer, some_bind]
    cases answer with
    | true =>
      right
      exact ⟨0, Nat.le_refl 0, rfl, hiff.mp rfl, fun place hlow hhigh => absurd hhigh hlow.not_ge⟩
    | false =>
      left
      refine ⟨rfl, fun place hplace hrecord => ?_⟩
      obtain rfl := Nat.le_zero.mp hplace
      exact Bool.false_ne_true (hiff.mpr hrecord)
  | succ index ih =>
    obtain ⟨answer, hanswer, hiff⟩ := exists_recordAt h hlength
    unfold scanBack
    rw [hanswer, some_bind]
    cases answer with
    | true =>
      right
      exact ⟨index + 1, le_rfl, rfl, hiff.mp rfl, fun place hlow hhigh => absurd hhigh hlow.not_ge⟩
    | false =>
      have hnot : ¬IsRecord (window.drop (index + 1)) := fun hrecord =>
        Bool.false_ne_true (hiff.mpr hrecord)
      rcases ih (by omega) with ⟨hnone, hall⟩ | ⟨found, hle, hfound, hrecord, hlast⟩
      · left
        refine ⟨hnone, fun place hplace => ?_⟩
        rcases Nat.le_succ_iff.mp hplace with hplace | rfl
        · exact hall place hplace
        · exact hnot
      · right
        refine ⟨found, Nat.le_succ_of_le hle, hfound, hrecord, fun place hlow hhigh => ?_⟩
        rcases Nat.le_succ_iff.mp hhigh with hhigh | rfl
        · exact hlast place hlow hhigh
        · exact hnot

/-- What the loop reads of an entry. -/
theorem Begins.fields {bytes name rest : List UInt8} {extra comment : Nat}
    (h : Begins bytes name rest extra comment) :
    centralSignature.isPrefixOf bytes = true ∧ le16 bytes 0 28 = some name.length ∧
      le16 bytes 0 30 = some extra ∧ le16 bytes 0 32 = some comment ∧
      bytes.drop 46 = name ++ rest ∧ 46 + name.length ≤ bytes.length := by
  obtain ⟨hname, hextra, hcomment, fixed, attributes, hfixed, hattributes, rfl⟩ := h
  have hfront : (centralSignature ++ fixed).length = 28 := by
    rw [List.length_append, hfixed]
    rfl
  unfold entryHeader
  rw [List.isPrefixOf_iff_prefix]
  refine ⟨?_, ?_, ?_, ?_, ?_, ?_⟩
  · simp only [List.append_assoc]
    exact List.prefix_append _ _
  · rw [List.append_assoc, List.append_assoc (bytes16 _), le16_at _ hfront.symm (by omega),
      Nat.mod_eq_of_lt hname]
  · rw [← List.append_assoc _ (bytes16 _), List.append_assoc, List.append_assoc (bytes16 extra),
      le16_at _ (by rw [List.length_append, hfront, length_bytes16])
        (by rw [List.length_append, hfront, length_bytes16]; decide), Nat.mod_eq_of_lt hextra]
  · rw [← List.append_assoc _ (bytes16 _), ← List.append_assoc _ (bytes16 extra), List.append_assoc,
      List.append_assoc (bytes16 comment),
      le16_at _
        (by rw [List.length_append, List.length_append, hfront, length_bytes16, length_bytes16])
        (by rw [List.length_append, List.length_append, hfront, length_bytes16, length_bytes16]
            decide),
      Nat.mod_eq_of_lt hcomment]
  · refine List.drop_left' ?_
    simp only [List.length_append, hfixed, hattributes, length_bytes16]
    rfl
  · simp only [List.length_append, hfixed, hattributes, length_bytes16, centralSignature,
      List.length_cons, List.length_nil]
    omega

/-- Where the loop reads the lengths of an entry and its name fits, an entry begins. -/
theorem begins_of_fields {bytes : List UInt8} {name extra comment : Nat}
    (hstarts : centralSignature.isPrefixOf bytes = true) (hname : le16 bytes 0 28 = some name)
    (hextra : le16 bytes 0 30 = some extra) (hcomment : le16 bytes 0 32 = some comment)
    (hfits : 46 + name ≤ bytes.length) :
    Begins bytes ((bytes.drop 46).take name) ((bytes.drop 46).drop name) extra comment := by
  obtain ⟨hname, hnameSmall⟩ := drop_le16 hname
  obtain ⟨hextra, hextraSmall⟩ := drop_le16 hextra
  obtain ⟨hcomment, hcommentSmall⟩ := drop_le16 hcomment
  have hlength : ((bytes.drop 46).take name).length = name := by
    rw [List.length_take, List.length_drop]
    omega
  refine ⟨by rwa [hlength], hextraSmall, hcommentSmall, (bytes.drop 4).take 24,
    (bytes.drop 34).take 12, ?_, ?_, ?_⟩
  · rw [List.length_take, List.length_drop]
    omega
  · rw [List.length_take, List.length_drop]
    omega
  have hsignature : bytes.take 4 = centralSignature :=
    (List.prefix_iff_eq_take.mp (List.isPrefixOf_iff_prefix.mp hstarts)).symm
  rw [hlength, List.take_append_drop]
  unfold entryHeader
  calc bytes = bytes.take 4 ++ ((bytes.drop 4).take 24 ++ (bytes.drop 4).drop 24) := by
        rw [List.take_append_drop, List.take_append_drop]
    _ = centralSignature ++ ((bytes.drop 4).take 24 ++
      (bytes16 name ++ (bytes16 extra ++ (bytes16 comment ++
          ((bytes.drop 34).take 12 ++ (bytes.drop 34).drop 12))))) := by
        rw [hsignature, List.drop_drop, hname, hextra, hcomment, List.take_append_drop]
    _ = _ := by
        rw [List.drop_drop]
        simp only [List.append_assoc]

/-- Bytes list their names in one way. -/
theorem Listing.unique {bytes : List UInt8} {names others : List Str} (h : Listing bytes names)
    (hother : Listing bytes others) : names = others := by
  have hsame : ∀ {bytes name rest name' rest' : List UInt8} {extra comment extra' comment' : Nat},
      Begins bytes name rest extra comment → Begins bytes name' rest' extra' comment' →
        name = name' ∧ rest = rest' ∧ extra = extra' ∧ comment = comment' := by
    intro bytes name rest name' rest' extra comment extra' comment' h h'
    obtain ⟨-, hname, hextra, hcomment, hrest, -⟩ := h.fields
    obtain ⟨-, hname', hextra', hcomment', hrest', -⟩ := h'.fields
    have htext := List.append_inj (hrest.symm.trans hrest')
      (Option.some.inj (hname.symm.trans hname'))
    exact ⟨htext.1, htext.2, Option.some.inj (hextra.symm.trans hextra'),
      Option.some.inj (hcomment.symm.trans hcomment')⟩
  induction h generalizing others with
  | stop hnone =>
    cases hother with
    | stop => rfl
    | cut h => exact absurd h (hnone _ _ _ _)
    | entry h => exact absurd h (hnone _ _ _ _)
  | cut h hcut =>
    cases hother with
    | stop hnone => exact absurd h (hnone _ _ _ _)
    | cut h' =>
      obtain ⟨rfl, -⟩ := hsame h h'
      rfl
    | entry h' hfits =>
      obtain ⟨-, rfl, rfl, rfl⟩ := hsame h h'
      omega
  | entry h hfits _ ih =>
    cases hother with
    | stop hnone => exact absurd h (hnone _ _ _ _)
    | cut h' hcut =>
      obtain ⟨-, rfl, rfl, rfl⟩ := hsame h h'
      omega
    | entry h' _ hrest =>
      obtain ⟨rfl, rfl, rfl, rfl⟩ := hsame h h'
      rw [ih hrest]

/-- The loop ends, since every round goes forward, and gives the names of the directory. -/
theorem walk_listing (hlength : directory.length < 2 ^ 63) {fuel : Nat} {names : List Str}
    (hoffset : offset ≤ directory.length) (hfuel : directory.length < offset + fuel) :
    ∃ more, walk directory fuel offset names = some (names ++ more) ∧
    Listing (directory.drop offset) more := by
  induction fuel generalizing offset names with
  | zero => omega
  | succ fuel ih =>
    have hdrop : (directory.drop offset).length = directory.length - offset := List.length_drop
    unfold walk centralHeader
    rw [checkedAdd_eq (by omega), some_bind]
    split_ifs with hend
    · refine ⟨[], by rw [List.append_nil], .stop fun name rest extra comment h => ?_⟩
      have := h.fields.2.2.2.2.2
      omega
    rw [startsAt_eq hoffset, some_bind]
    split_ifs with hstarts
    · refine ⟨[], by rw [List.append_nil], .stop fun name rest extra comment h => ?_⟩
      rw [h.fields.1] at hstarts
      cases hstarts
    obtain ⟨nameLen, hname, hnameSmall⟩ :=
      exists_le16 (show offset + 28 + 1 < directory.length by omega) (by omega)
    obtain ⟨extraLen, hextra, hextraSmall⟩ :=
      exists_le16 (show offset + 30 + 1 < directory.length by omega) (by omega)
    obtain ⟨commentLen, hcomment, hcommentSmall⟩ :=
      exists_le16 (show offset + 32 + 1 < directory.length by omega) (by omega)
    rw [hname, some_bind, hextra, some_bind, hcomment, some_bind, checkedAdd_eq (by omega)]
    rw [← le16_drop (by omega)] at hname hextra hcomment
    by_cases hfits : offset + 46 + nameLen ≤ directory.length
    · have hbegins := begins_of_fields (by simpa using hstarts) hname hextra hcomment (by omega)
      rw [Option.filter_some_pos (by simpa using hfits)]
      dsimp only
      rw [checkedAdd_eq (by omega), Option.bind_some, checkedAdd_eq (by omega), ← List.drop_drop]
      by_cases hnext : offset + 46 + nameLen + extraLen + commentLen ≤ directory.length
      · rw [Option.filter_some_pos (by simpa using hnext)]
        obtain ⟨more, hmore, hlisting⟩ := @ih (offset + 46 + nameLen + extraLen + commentLen)
          (names ++ (listedName (((directory.drop offset).drop 46).take nameLen)).toList)
            hnext (by omega)
        refine ⟨_ ++ more, ?_, .entry hbegins ?_ ?_⟩
        · rw [← List.append_assoc]
          exact hmore
        · rw [List.length_drop, List.length_drop]
          omega
        · rwa [List.drop_drop, List.drop_drop, List.drop_drop, ← Nat.add_assoc, ← Nat.add_assoc,
            ← Nat.add_assoc]
      · rw [Option.filter_some_neg (by simpa using hnext)]
        refine ⟨_, rfl, .cut hbegins ?_⟩
        rw [List.length_drop, List.length_drop]
        omega
    · rw [Option.filter_some_neg (by simpa using hfits)]
      refine ⟨[], by rw [List.append_nil], .stop fun name rest extra comment h => ?_⟩
      obtain ⟨-, hother, -, -, -, hlong⟩ := h.fields
      rw [hname] at hother
      obtain rfl := Option.some.inj hother
      omega

/-- What is read of an end record. -/
theorem EndRecord.fields (record : EndRecord) :
    le16 record.bytes 0 10 = some record.entries ∧ le32 record.bytes 0 12 = some record.size ∧
      le32 record.bytes 0 16 = some record.offset ∧
      le16 record.bytes 0 20 = some record.comment.length := by
  have hfront : (eocdSignature ++ record.disks).length = 10 := by
    rw [List.length_append, record.length_disks]
    rfl
  unfold EndRecord.bytes
  refine ⟨?_, ?_, ?_, ?_⟩
  · rw [le16_at _ hfront.symm (by omega), Nat.mod_eq_of_lt record.entries_small]
  · rw [← List.append_assoc _ (bytes16 _), le32_at record.size_small
      (by rw [List.length_append, hfront, length_bytes16])
      (by rw [List.length_append, hfront, length_bytes16]; decide)]
  · rw [← List.append_assoc _ (bytes16 _), ← List.append_assoc _ (bytes32 _),
      le32_at record.offset_small
      (by simp only [List.length_append, record.length_disks]; rfl)
      (by simp only [List.length_append, record.length_disks, length_bytes16, length_bytes32]
          decide)]
  · rw [← List.append_assoc _ (bytes16 _), ← List.append_assoc _ (bytes32 _),
      ← List.append_assoc _ (bytes32 _),
      le16_at _ (by simp only [List.length_append, record.length_disks]; rfl)
      (by simp only [List.length_append, record.length_disks, length_bytes16, length_bytes32]
          decide),
      Nat.mod_eq_of_lt record.comment_small]

theorem EndRecord.length_bytes (record : EndRecord) : record.bytes.length =
    eocdHeader + record.comment.length := by
  unfold EndRecord.bytes
  simp only [List.length_append, record.length_disks, length_bytes16, length_bytes32, eocdSignature,
    List.length_cons, List.length_nil, eocdHeader]
  omega

theorem EndRecord.isRecord (record : EndRecord) : IsRecord record.bytes := by
  refine ⟨?_, record.comment.length, record.fields.2.2.2, record.length_bytes.symm⟩
  rw [List.isPrefixOf_iff_prefix]
  unfold EndRecord.bytes
  rw [List.append_assoc]
  exact List.prefix_append _ _

/-- The bytes tell end records apart. -/
theorem EndRecord.bytes_injective : Function.Injective EndRecord.bytes := by
  intro record other h
  obtain ⟨hentries, hsize, hoffset, hcomment⟩ := record.fields
  obtain ⟨hentries', hsize', hoffset', hcomment'⟩ := other.fields
  rw [← h] at hentries' hsize' hoffset' hcomment'
  have hentries := Option.some.inj (hentries.symm.trans hentries')
  have hsize := Option.some.inj (hsize.symm.trans hsize')
  have hoffset := Option.some.inj (hoffset.symm.trans hoffset')
  have hcomment := Option.some.inj (hcomment.symm.trans hcomment')
  unfold EndRecord.bytes at h
  rw [List.append_assoc, List.append_assoc] at h
  have hdisks := List.append_inj (List.append_cancel_left h)
    (record.length_disks.trans other.length_disks.symm)
  have hback := hdisks.2
  rw [hentries, hsize, hoffset, hcomment] at hback
  have hcomments := List.append_cancel_left (List.append_cancel_left (List.append_cancel_left
    (List.append_cancel_left hback)))
  cases record
  cases other
  exact (EndRecord.mk.injEq ..).mpr ⟨hdisks.1, hentries, hsize, hoffset, hcomments⟩

/-- What the scan takes for an end record is the bytes of one. -/
theorem exists_endRecord {rest : List UInt8} (h : IsRecord rest) (hlength : rest.length < 2 ^ 64) :
    ∃ record : EndRecord, rest = record.bytes := by
  obtain ⟨hstarts, comment, hcomment, hspan⟩ := h
  unfold eocdHeader at hspan
  obtain ⟨entries, hentries, -⟩ := @exists_le16 rest 0 10 (by omega) hlength
  obtain ⟨size, hsize⟩ := @exists_le32 rest 0 12 (by omega) hlength
  obtain ⟨offset, hoffset⟩ := @exists_le32 rest 0 16 (by omega) hlength
  obtain ⟨hentries, hentriesSmall⟩ := drop_le16 hentries
  obtain ⟨hsize, hsizeSmall⟩ := drop_le32 hsize
  obtain ⟨hoffset, hoffsetSmall⟩ := drop_le32 hoffset
  obtain ⟨hcomment, hcommentSmall⟩ := drop_le16 hcomment
  have htail : (rest.drop 22).length = comment := by
    rw [List.length_drop]
    omega
  have hdisks : ((rest.drop 4).take 6).length = 6 := by
    rw [List.length_take, List.length_drop]
    omega
  refine ⟨⟨(rest.drop 4).take 6, entries, size, offset, rest.drop 22, hdisks,
    hentriesSmall, hsizeSmall, hoffsetSmall, by rwa [htail]⟩, ?_⟩
  have hsignature : rest.take 4 = eocdSignature :=
    (List.prefix_iff_eq_take.mp (List.isPrefixOf_iff_prefix.mp hstarts)).symm
  unfold EndRecord.bytes
  dsimp only
  calc rest = rest.take 4 ++ ((rest.drop 4).take 6 ++ (rest.drop 4).drop 6) := by
        rw [List.take_append_drop, List.take_append_drop]
    _ = _ := by rw [hsignature, List.drop_drop, hentries, hsize, hoffset, hcomment, htail,
      List.append_assoc]

/-- An end record describes one list of names. -/
theorem EndRecord.Describes.unique {record : EndRecord} {names others : List Str}
    (h : record.Describes file names) (hother : record.Describes file others) : names = others := by
  by_cases hreadable : record.Readable file
  · exact (h.1 hreadable).unique (hother.1 hreadable)
  · rw [h.2 hreadable, hother.2 hreadable]

/-- The names that its record describes are read. -/
theorem recordNames_describes {record : EndRecord} (hlength : window.length < 2 ^ 63)
    (hrecord : window.drop index = record.bytes) :
    ∃ listed, recordNames file window index = some listed ∧ record.Describes file listed := by
  have hlong := congrArg List.length hrecord
  rw [List.length_drop, record.length_bytes] at hlong
  unfold eocdHeader at hlong
  obtain ⟨hentries, hsize, hoffset, -⟩ := record.fields
  have hread32 : ∀ delta < 2 ^ 32, le32 window index delta = le32 (window.drop index) 0 delta := by
    intro delta hdelta
    unfold le32
    rw [le16_drop (by omega), le16_drop (by omega)]
  have hsmall := record.size_small
  have hsmall' := record.offset_small
  unfold recordNames
  rw [← le16_drop (by omega), hread32 12 (by decide), hread32 16 (by decide), hrecord, hentries,
    hsize, hoffset, some_bind, some_bind, some_bind]
  split_ifs with hsentinel hbound
  · refine ⟨[], rfl, fun hreadable => ?_, fun _ => rfl⟩
    rcases hsentinel with h | h | h
    · exact absurd h hreadable.entries
    · exact absurd h hreadable.size
    · exact absurd h hreadable.offset
  · refine ⟨[], rfl, fun hreadable => ?_, fun _ => rfl⟩
    have := hreadable.small
    have := hreadable.inside
    omega
  · unfold readExact
    split_ifs with hread
    · have hmax : maxCentralDirectory < 2 ^ 63 := by decide
      obtain ⟨listed, hlisted, hlisting⟩ := @walk_listing
        ((file.drop record.offset).take record.size) 0 (by rw [List.length_take]; omega)
        (((file.drop record.offset).take record.size).length + 1) [] (Nat.zero_le _) (by omega)
      refine ⟨listed, hlisted, fun _ => hlisting, fun hnot => absurd ?_ hnot⟩
      rw [not_or, not_or] at hsentinel
      exact ⟨hsentinel.1, hsentinel.2.1, hsentinel.2.2, by omega, hread⟩
    · exact ⟨[], rfl, fun hreadable => absurd hreadable.inside hread, fun _ => rfl⟩

theorem length_windowOf_le (file : List UInt8) : (windowOf file).length ≤ 65536 + eocdHeader := by
  unfold windowOf
  rw [List.length_drop]
  omega

theorem length_windowOf (h : eocdHeader ≤ file.length) : eocdHeader ≤ (windowOf file).length := by
  unfold windowOf
  rw [List.length_drop]
  omega

/-- Nothing is read outside of the bytes, and no sum overflows. -/
theorem exists_zipMemberNames (file : List UInt8) : ∃ listed,
    zipMemberNames file = some listed := by
  have hsmall : 65536 + eocdHeader < 2 ^ 63 := by decide
  have hle := length_windowOf_le file
  unfold zipMemberNames
  split_ifs with hshort
  · exact ⟨_, rfl⟩
  · have hlong := length_windowOf (Nat.le_of_not_lt hshort)
    rcases scanBack_spec (Nat.sub_add_cancel hlong).le (by omega) with
      ⟨hnone, -⟩ | ⟨found, hfound, hsome, hrecord, -⟩
    · rw [hnone]
      exact ⟨_, rfl⟩
    · rw [hsome]
      obtain ⟨record, hrecord⟩ := exists_endRecord hrecord (by rw [List.length_drop]; omega)
      obtain ⟨listed, hlisted, -⟩ := @recordNames_describes (windowOf file) file found record
        (by omega) hrecord
      exact ⟨listed, hlisted⟩

end

/-! ## Archives -/

/-- A member, as the directory describes it. -/
structure Member where
  fixed : List UInt8
  attributes : List UInt8
  name : List UInt8
  extra : List UInt8
  comment : List UInt8
  length_fixed : fixed.length = 24
  length_attributes : attributes.length = 12
  name_small : name.length < 65536
  extra_small : extra.length < 65536
  comment_small : comment.length < 65536

def Member.bytes (member : Member) : List UInt8 :=
  entryHeader member.fixed member.attributes member.name.length member.extra.length
    member.comment.length ++ (member.name ++ (member.extra ++ member.comment))

/-- A classic archive on one disk: the data of the members, the directory, whatever stands in front
of the end record, and the comment. -/
structure Archive where
  data : List UInt8
  members : List Member
  gap : List UInt8
  comment : List UInt8
  few : members.length < 65535
  directory_small : (members.flatMap Member.bytes).length ≤ maxCentralDirectory
  data_small : data.length < u32Max
  comment_small : comment.length ≤ 65535

namespace Archive

def directory (archive : Archive) : List UInt8 := archive.members.flatMap Member.bytes

theorem directory_lt (archive : Archive) : archive.directory.length < u32Max :=
  Nat.lt_of_le_of_lt archive.directory_small (by decide)

/-- The end record: one disk, and all members on it. -/
def endRecord (archive : Archive) : EndRecord where
  disks := [0, 0, 0, 0] ++ bytes16 archive.members.length
  entries := archive.members.length
  size := archive.directory.length
  offset := archive.data.length
  comment := archive.comment
  length_disks := rfl
  entries_small := Nat.lt_succ_of_lt archive.few
  size_small := Nat.lt_succ_of_lt archive.directory_lt
  offset_small := Nat.lt_succ_of_lt archive.data_small
  comment_small := Nat.lt_succ_of_le archive.comment_small

def tail (archive : Archive) : List UInt8 := archive.endRecord.bytes

def bytes (archive : Archive) : List UInt8 :=
  archive.data ++ archive.directory ++ archive.gap ++ archive.tail

/-- The names in UTF-8 that are no directories, in the order of the directory. -/
def names (archive : Archive) : List Str := archive.members.filterMap fun member =>
    listedName member.name

/-- What stands behind the start of the end record to the end of the file is an end record with its
comment, too. -/
def Impostor (archive : Archive) (place : Nat) (record : EndRecord) : Prop :=
  0 < place ∧ archive.tail.drop place = record.bytes

end Archive

/-! ## The end record is found -/

/-- Whole members list their names. -/
theorem listing_members (members : List Member) :
    Listing (members.flatMap Member.bytes)
      (members.filterMap fun member => listedName member.name) := by
  induction members with
  | nil =>
    refine .stop fun name rest extra comment h => ?_
    have := h.fields.2.2.2.2.2
    simp at this
  | cons member members ih =>
    have hbegins : Begins (member.bytes ++ members.flatMap Member.bytes) member.name
        (member.extra ++ (member.comment ++ members.flatMap Member.bytes)) member.extra.length
        member.comment.length := by
      refine ⟨member.name_small, member.extra_small, member.comment_small, member.fixed,
        member.attributes, member.length_fixed, member.length_attributes, ?_⟩
      unfold Member.bytes
      simp only [List.append_assoc]
    have hrest : (member.extra ++ (member.comment ++ members.flatMap Member.bytes)).drop
        (member.extra.length + member.comment.length) = members.flatMap Member.bytes := by
      rw [← List.append_assoc, ← List.length_append, List.drop_left]
    have hlisting := Listing.entry hbegins (by simp only [List.length_append]; omega)
      (by rwa [hrest])
    rw [List.flatMap_cons, List.filterMap_cons]
    cases hname : listedName member.name with
    | none =>
      rw [hname] at hlisting
      exact hlisting
    | some name =>
      rw [hname] at hlisting
      exact hlisting

namespace Archive

variable (archive : Archive)

/-- The end record of an archive describes its members. -/
theorem describes_names : archive.endRecord.Describes archive.bytes archive.names := by
  have hreadable : archive.endRecord.Readable archive.bytes := by
    refine ⟨archive.few.ne, archive.directory_lt.ne, archive.data_small.ne,
      archive.directory_small, ?_⟩
    unfold bytes
    simp only [List.length_append]
    exact Nat.le_add_right_of_le (Nat.le_add_right _ _)
  refine ⟨fun _ => ?_, fun hnot => absurd hreadable hnot⟩
  have hdirectory : (archive.bytes.drop archive.data.length).take archive.directory.length =
    archive.directory := by
    unfold bytes
    rw [List.append_assoc, List.append_assoc, List.drop_left, List.take_left]
  show Listing ((archive.bytes.drop archive.data.length).take archive.directory.length)
    archive.names
  rw [hdirectory]
  exact listing_members archive.members

/-- The window ends with the record and the comment. -/
theorem exists_front : ∃ front, windowOf archive.bytes = front ++ archive.tail := by
  have hcomment := archive.comment_small
  have htail : archive.tail.length = eocdHeader + archive.comment.length :=
    archive.endRecord.length_bytes
  unfold windowOf bytes
  refine ⟨_, List.drop_append_of_le_length ?_⟩
  rw [List.length_append, htail]
  omega

/-- The scan finds the last record in the end of an archive, and what it describes is listed. -/
theorem exists_scanned : ∃ place record,
    (place = 0 ∧ record = archive.endRecord ∨ archive.Impostor place record) ∧
    (∀ other > place, ∀ record, ¬archive.Impostor other record) ∧
    ∃ listed, zipMemberNames archive.bytes = some listed ∧
    record.Describes archive.bytes listed := by
  obtain ⟨front, hfront⟩ := archive.exists_front
  have hlength := length_windowOf_le archive.bytes
  have hsmall : 65536 + eocdHeader < 2 ^ 63 := by decide
  have htail : archive.tail.length = eocdHeader + archive.comment.length :=
    archive.endRecord.length_bytes
  have hbytes : ¬archive.bytes.length < eocdHeader := by
    unfold bytes
    rw [List.length_append, htail]
    omega
  have hwindow : (windowOf archive.bytes).length = front.length + archive.tail.length := by
    rw [hfront, List.length_append]
  have hdrop : ∀ place, (windowOf archive.bytes).drop (front.length + place) =
    archive.tail.drop place := by
    intro place
    rw [hfront, ← List.drop_drop, List.drop_left]
  have hscan := @scanBack_spec (windowOf archive.bytes)
    ((windowOf archive.bytes).length - eocdHeader) (by omega) (by omega)
  have hrecord : IsRecord ((windowOf archive.bytes).drop front.length) := by
    have h := hdrop 0
    rw [Nat.add_zero, List.drop_zero] at h
    rw [h]
    exact archive.endRecord.isRecord
  rcases hscan with ⟨-, hnone⟩ | ⟨found, hle, hsome, hfound, hlast⟩
  · exact absurd hrecord (hnone front.length (by omega))
  · have hge : front.length ≤ found := by
      by_contra hlt
      exact hlast front.length (Nat.lt_of_not_le hlt) (by omega) hrecord
    obtain ⟨place, rfl⟩ := Nat.exists_eq_add_of_le hge
    obtain ⟨record, hbytesOf, hplace⟩ : ∃ record : EndRecord,
        (windowOf archive.bytes).drop (front.length + place) = record.bytes ∧
          (place = 0 ∧ record = archive.endRecord ∨ archive.Impostor place record) := by
      rcases Nat.eq_zero_or_pos place with rfl | hpos
      · exact ⟨archive.endRecord, hdrop 0, .inl ⟨rfl, rfl⟩⟩
      · obtain ⟨record, hrecord⟩ := exists_endRecord hfound (by rw [List.length_drop]; omega)
        exact ⟨record, hrecord, .inr ⟨hpos, (hdrop place).symm.trans hrecord⟩⟩
    obtain ⟨listed, hlisted, hdescribes⟩ :=
      @recordNames_describes (windowOf archive.bytes) archive.bytes (front.length + place) record
        (by omega) hbytesOf
    refine ⟨place, record, hplace, fun other hother record himpostor => ?_, listed, ?_, hdescribes⟩
    · have hspan := congrArg List.length himpostor.2
      rw [List.length_drop, record.length_bytes] at hspan
      unfold eocdHeader at hspan hle hwindow hbytes
      refine hlast (front.length + other) (by omega) (by unfold eocdHeader; omega) ?_
      rw [hdrop, himpostor.2]
      exact record.isRecord
    · unfold zipMemberNames
      rw [if_neg hbytes, hsome]
      exact hlisted

end Archive

/-- **The listing is total, and exact** for an archive exactly if no other end record, with a
comment that spans the rest, starts behind its end record, or the last one that does describes the
same names. -/
theorem listing_iff (file : List UInt8) (archive : Archive) :
    (∃ listed, zipMemberNames file = some listed) ∧
    (zipMemberNames archive.bytes = some archive.names ↔
      (∀ place record, ¬archive.Impostor place record) ∨
      ∃ place record, archive.Impostor place record ∧
        (∀ other > place, ∀ record, ¬archive.Impostor other record) ∧
        record.Describes archive.bytes archive.names) := by
  refine ⟨exists_zipMemberNames file, ?_⟩
  obtain ⟨place, record, hplace, hlast, listed, hlisted, hdescribes⟩ := archive.exists_scanned
  rw [hlisted, Option.some.injEq]
  constructor
  · rintro rfl
    rcases hplace with ⟨rfl, -⟩ | hplace
    · exact .inl fun other record himpostor => hlast other himpostor.1 record himpostor
    · exact .inr ⟨place, record, hplace, hlast, hdescribes⟩
  · rintro (hnone | ⟨other, record', hother, hothers, h⟩)
    · obtain ⟨rfl, rfl⟩ := hplace.resolve_right (hnone place record)
      exact hdescribes.unique archive.describes_names
    · have hsame : place = other := by
        rcases Nat.lt_trichotomy place other with hlt | heq | hgt
        · exact absurd hother (hlast other hlt record')
        · exact heq
        · rcases hplace with ⟨rfl, -⟩ | hplace
          · exact absurd hgt (Nat.not_lt_zero other)
          · exact absurd hplace (hothers place hgt record)
      subst hsame
      rcases hplace with ⟨rfl, -⟩ | hplace
      · exact absurd hother.1 (Nat.lt_irrefl 0)
      · obtain rfl := EndRecord.bytes_injective (hplace.2.symm.trans hother.2)
        exact hdescribes.unique h

/-- An archive of the empty file `a`, whose comment is the end record of an empty archive. -/
def forged : Archive where
  data := [0x50, 0x4b, 0x03, 0x04] ++ List.replicate 22 0 ++ [1, 0, 0, 0, 0x61]
  members := [{
    fixed := List.replicate 24 0
    attributes := List.replicate 12 0
    name := [0x61]
    extra := []
    comment := []
    length_fixed := rfl
    length_attributes := rfl
    name_small := by decide
    extra_small := by decide
    comment_small := by decide }]
  gap := []
  comment := eocdSignature ++ List.replicate 18 0
  few := by decide
  directory_small := by decide
  data_small := by decide
  comment_small := by decide

/-- Nothing is listed of it. -/
theorem not_listed_forged : ¬((∀ file, ∃ listed, zipMemberNames file = some listed) ∧
    ∀ archive : Archive, zipMemberNames archive.bytes = some archive.names) := by
  rintro ⟨-, h⟩
  have hforged := h forged
  revert hforged
  decide +kernel

end ParadoxCode.Engine.Zip

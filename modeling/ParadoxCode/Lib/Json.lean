import ParadoxCode.Lib.Utf8

/-!
# JSON

Values and their compact text. A text is printed from one value only (`print_injective`), it is at
least as long as the strings in the value, and `depth` counts nested arrays and objects.
-/

inductive Json where
  | null
  | bool (b : Bool)
  | number (n : Nat)
  | string (text : List Char)
  | array (elements : List Json)
  | object (members : List (List Char × Json))

namespace Json

/-! ## Strings -/

/-- The last digit of a number to base 16. -/
def hexDigit (n : Nat) : Char := Nat.digitChar (n % 16)

/-- A character within quotes. -/
def escape (c : Char) : List Char :=
  if c = '"' then ['\\', '"']
  else if c = '\\' then ['\\', '\\']
  else if c = Char.ofNat 0x08 then ['\\', 'b']
  else if c = Char.ofNat 0x09 then ['\\', 't']
  else if c = Char.ofNat 0x0A then ['\\', 'n']
  else if c = Char.ofNat 0x0C then ['\\', 'f']
  else if c = Char.ofNat 0x0D then ['\\', 'r']
  else if c.toNat < 0x20 then ['\\', 'u', '0', '0', hexDigit (c.toNat / 16), hexDigit c.toNat]
  else [c]

def printString (text : List Char) : List Char := '"' :: text.flatMap escape ++ ['"']

/-! ## Values -/

mutual

/-- The text without spaces. -/
def print : Json → List Char
  | .null => ['n', 'u', 'l', 'l']
  | .bool true => ['t', 'r', 'u', 'e']
  | .bool false => ['f', 'a', 'l', 's', 'e']
  | .number n => Nat.toDigits 10 n
  | .string text => printString text
  | .array elements => '[' :: printElements [] elements
  | .object members => '\x7B' :: printMembers [] members

/-- The elements behind a separator, with the bracket at the end. -/
def printElements (separator : List Char) : List Json → List Char
  | [] => [']']
  | element :: elements => separator ++ print element ++ printElements [','] elements

def printMembers (separator : List Char) : List (List Char × Json) → List Char
  | [] => ['\x7D']
  | member :: members => separator ++ printMember member ++ printMembers [','] members

def printMember : List Char × Json → List Char
  | (key, value) => printString key ++ ':' :: print value

end

mutual

/-- How deep arrays and objects are nested. -/
def depth : Json → Nat
  | .array elements => 1 + depths elements
  | .object members => 1 + depthMembers members
  | _ => 0

def depths : List Json → Nat
  | [] => 0
  | element :: elements => max element.depth (depths elements)

def depthMembers : List (List Char × Json) → Nat
  | [] => 0
  | member :: members => max (depthMember member) (depthMembers members)

def depthMember : List Char × Json → Nat
  | (_, value) => value.depth

end

mutual

/-- The bytes of the strings in a value. -/
def textBytes : Json → Nat
  | .string text => (Utf8.encode text).length
  | .array elements => textBytesAll elements
  | .object members => textBytesMembers members
  | _ => 0

def textBytesAll : List Json → Nat
  | [] => 0
  | element :: elements => element.textBytes + textBytesAll elements

def textBytesMembers : List (List Char × Json) → Nat
  | [] => 0
  | member :: members => textBytesMember member + textBytesMembers members

def textBytesMember : List Char × Json → Nat
  | (_, value) => value.textBytes

end

/-! ## One value for a text -/

/-- No digit stands in front. -/
def NoDigit (rest : List Char) : Prop := ∀ c ∈ rest.head?, c.isDigit = false

theorem noDigit_cons {c : Char} (h : c.isDigit = false) (rest : List Char) :
    NoDigit (c :: rest) := by
  rintro _ ⟨⟩
  exact h

theorem digits_inj {ds es r s : List Char} (hds : ∀ c ∈ ds, c.isDigit = true)
    (hes : ∀ c ∈ es, c.isDigit = true) (hr : NoDigit r) (hs : NoDigit s) (h : ds ++ r = es ++ s) :
    ds = es ∧ r = s := by
  induction ds generalizing es with
  | nil =>
    cases es with
    | nil => exact ⟨rfl, h⟩
    | cons e es =>
      have hfalse := hr e (by rw [show r = e :: (es ++ s) from h]; rfl)
      rw [hes e List.mem_cons_self] at hfalse
      cases hfalse
  | cons d ds ih =>
    cases es with
    | nil =>
      have hfalse := hs d (by rw [show s = d :: (ds ++ r) from h.symm]; rfl)
      rw [hds d List.mem_cons_self] at hfalse
      cases hfalse
    | cons e es =>
      obtain ⟨rfl, htail⟩ := List.cons.inj h
      obtain ⟨rfl, hrest⟩ := ih (fun c hc => hds c (List.mem_cons_of_mem _ hc))
        (fun c hc => hes c (List.mem_cons_of_mem _ hc)) htail
      exact ⟨rfl, hrest⟩

/-- Reads an escaped character. -/
def unescape : List Char → Option (Char × List Char)
  | '\\' :: '"' :: rest => some ('"', rest)
  | '\\' :: '\\' :: rest => some ('\\', rest)
  | '\\' :: 'b' :: rest => some (Char.ofNat 0x08, rest)
  | '\\' :: 't' :: rest => some (Char.ofNat 0x09, rest)
  | '\\' :: 'n' :: rest => some (Char.ofNat 0x0A, rest)
  | '\\' :: 'f' :: rest => some (Char.ofNat 0x0C, rest)
  | '\\' :: 'r' :: rest => some (Char.ofNat 0x0D, rest)
  | '\\' :: 'u' :: '0' :: '0' :: high :: low :: rest =>
    ((List.range 0x20).find? fun n => hexDigit (n / 16) == high && hexDigit n == low).map
      fun n => (Char.ofNat n, rest)
  | c :: rest => if c = '"' then none else some (c, rest)
  | [] => none

theorem find_control : ∀ k < 0x20, (List.range 0x20).find? (fun n =>
    hexDigit (n / 16) == hexDigit (k / 16) && hexDigit n == hexDigit k) = some k := by
  decide

theorem unescape_escape (c : Char) (rest : List Char) : unescape (escape c ++ rest) =
    some (c, rest) := by
  unfold escape
  split_ifs with hquote hback h8 h9 ha hc hd hcontrol
  · rw [hquote]; rfl
  · rw [hback]; rfl
  · rw [h8]; rfl
  · rw [h9]; rfl
  · rw [ha]; rfl
  · rw [hc]; rfl
  · rw [hd]; rfl
  · have hfind := find_control c.toNat hcontrol
    simp only [List.cons_append, List.nil_append, unescape]
    rw [hfind, Option.map_some, Char.ofNat_toNat]
  · rw [List.singleton_append]
    unfold unescape
    split <;> simp_all

theorem escape_front {c : Char} {rest rest' : List Char} : escape c ++ rest ≠ '"' :: rest' := by
  intro h
  have hread := unescape_escape c rest
  rw [h] at hread
  cases hread

theorem flatMap_escape_inj {text text' r s : List Char}
    (h : text.flatMap escape ++ '"' :: r = text'.flatMap escape ++ '"' :: s) :
    text = text' ∧ r = s := by
  induction text generalizing text' with
  | nil =>
    cases text' with
    | nil => exact ⟨rfl, (List.cons.inj h).2⟩
    | cons c text' =>
      rw [List.flatMap_cons, List.append_assoc] at h
      exact absurd h.symm escape_front
  | cons c text ih =>
    cases text' with
    | nil =>
      rw [List.flatMap_cons, List.append_assoc] at h
      exact absurd h escape_front
    | cons d text' =>
      rw [List.flatMap_cons, List.flatMap_cons, List.append_assoc, List.append_assoc] at h
      have hread := unescape_escape c (text.flatMap escape ++ '"' :: r)
      rw [h, unescape_escape d] at hread
      obtain ⟨rfl, hrest⟩ := Prod.mk.inj (Option.some.inj hread)
      obtain ⟨rfl, hrs⟩ := ih hrest.symm
      exact ⟨rfl, hrs⟩

theorem printString_inj {text text' r s : List Char}
    (h : printString text ++ r = printString text' ++ s) : text = text' ∧ r = s := by
  unfold printString at h
  simp only [List.cons_append, List.append_assoc, List.nil_append, List.cons.injEq, true_and] at h
  exact flatMap_escape_inj h

theorem isDigit_of_mem_number {n : Nat} : ∀ c ∈ Nat.toDigits 10 n, c.isDigit = true :=
  fun _ hc => Nat.isDigit_of_mem_toDigits (by decide) (by decide) hc

/-- A number begins with a digit. -/
theorem number_front (n : Nat) : ∃ c digits, c.isDigit = true ∧
    Nat.toDigits 10 n = c :: digits := by
  obtain ⟨c, digits, h⟩ := List.exists_cons_of_ne_nil (Nat.toDigits_ne_nil (n := n) (b := 10))
  exact ⟨c, digits, isDigit_of_mem_number c (by rw [h]; exact List.mem_cons_self), h⟩

/-- The first characters of a value. -/
theorem print_front (value : Json) : ∃ c rest, print value = c :: rest ∧ c ≠ ']' ∧
    (c.isDigit = true ↔ ∃ n, value = .number n) := by
  cases value with
  | null => exact ⟨'n', _, rfl, by decide, by simp⟩
  | bool b =>
    cases b with
    | false => exact ⟨'f', _, rfl, by decide, by simp⟩
    | true => exact ⟨'t', _, rfl, by decide, by simp⟩
  | number n =>
    obtain ⟨c, digits, hc, h⟩ := number_front n
    refine ⟨c, digits, h, ?_, by simp [hc]⟩
    rintro rfl
    revert hc
    decide
  | string text => exact ⟨'"', _, rfl, by decide, by simp⟩
  | array elements => exact ⟨'[', _, rfl, by decide, by simp⟩
  | object members => exact ⟨'\x7B', _, rfl, by decide, by simp⟩

theorem noDigit_printElements (elements : List Json) (rest : List Char) :
    NoDigit (printElements [','] elements ++ rest) := by
  cases elements with
  | nil => exact noDigit_cons (by decide) _
  | cons element elements => exact noDigit_cons (by decide) _

theorem noDigit_printMembers (members : List (List Char × Json)) (rest : List Char) :
    NoDigit (printMembers [','] members ++ rest) := by
  cases members with
  | nil => exact noDigit_cons (by decide) _
  | cons member members => exact noDigit_cons (by decide) _

/-- A number against another value. -/
theorem number_ne {n : Nat} {value : Json} {r s : List Char} (hvalue : ∀ m, value ≠ .number m) :
    print (.number n) ++ r ≠ print value ++ s := by
  intro h
  obtain ⟨c, digits, hc, hn⟩ := number_front n
  obtain ⟨d, rest, hd, -, hdigit⟩ := print_front value
  rw [print, hn, hd] at h
  obtain ⟨rfl, -⟩ := List.cons.inj h
  obtain ⟨m, hm⟩ := hdigit.mp hc
  exact hvalue m hm

mutual

theorem print_inj : ∀ (a b : Json) {r s : List Char}, NoDigit r → NoDigit s →
    print a ++ r = print b ++ s → a = b ∧ r = s
  | .null, b, r, s, hr, hs, h => by
    cases b with
    | null => exact ⟨rfl, List.append_cancel_left h⟩
    | number n => exact absurd h.symm (number_ne (by simp))
    | bool b => cases b <;> simp [print] at h
    | string text => simp [print, printString] at h
    | array elements => simp [print] at h
    | object members => simp [print] at h
  | .bool a, b, r, s, hr, hs, h => by
    cases b with
    | null => cases a <;> simp [print] at h
    | number n => exact absurd h.symm (number_ne (by simp))
    | bool b => cases a <;> cases b <;> simp_all [print]
    | string text => cases a <;> simp [print, printString] at h
    | array elements => cases a <;> simp [print] at h
    | object members => cases a <;> simp [print] at h
  | .number n, b, r, s, hr, hs, h => by
    by_cases hb : ∃ m, b = .number m
    · obtain ⟨m, rfl⟩ := hb
      obtain ⟨hdigits, hrest⟩ := digits_inj isDigit_of_mem_number isDigit_of_mem_number hr hs h
      rw [← Nat.ofDigitChars_ten_toDigits (n := n), hdigits, Nat.ofDigitChars_ten_toDigits]
      exact ⟨rfl, hrest⟩
    · exact absurd h (number_ne fun m hm => hb ⟨m, hm⟩)
  | .string text, b, r, s, hr, hs, h => by
    cases b with
    | null => simp [print, printString] at h
    | number n => exact absurd h.symm (number_ne (by simp))
    | bool b => cases b <;> simp [print, printString] at h
    | string text' =>
      obtain ⟨rfl, hrest⟩ := printString_inj h
      exact ⟨rfl, hrest⟩
    | array elements => simp [print, printString] at h
    | object members => simp [print, printString] at h
  | .array elements, b, r, s, hr, hs, h => by
    cases b with
    | null => simp [print] at h
    | number n => exact absurd h.symm (number_ne (by simp))
    | bool b => cases b <;> simp [print] at h
    | string text => simp [print, printString] at h
    | array elements' =>
      obtain ⟨rfl, hrest⟩ := printElements_inj elements elements' (Or.inl rfl) (List.cons.inj h).2
      exact ⟨rfl, hrest⟩
    | object members => simp [print] at h
  | .object members, b, r, s, hr, hs, h => by
    cases b with
    | null => simp [print] at h
    | number n => exact absurd h.symm (number_ne (by simp))
    | bool b => cases b <;> simp [print] at h
    | string text => simp [print, printString] at h
    | array elements => simp [print] at h
    | object members' =>
      obtain ⟨rfl, hrest⟩ := printMembers_inj members members' (Or.inl rfl) (List.cons.inj h).2
      exact ⟨rfl, hrest⟩

theorem printElements_inj : ∀ (as bs : List Json) {separator r s : List Char},
    separator = [] ∨ separator = [','] →
    printElements separator as ++ r = printElements separator bs ++ s → as = bs ∧ r = s
  | [], [], _, r, s, _, h => ⟨rfl, List.append_cancel_left h⟩
  | [], b :: bs, separator, r, s, hseparator, h => by
    obtain ⟨c, rest, hb, hne, -⟩ := print_front b
    rcases hseparator with rfl | rfl
    · simp only [printElements, hb, List.nil_append, List.cons_append, List.cons.injEq] at h
      exact absurd h.1.symm hne
    · simp [printElements] at h
  | a :: as, [], separator, r, s, hseparator, h => by
    obtain ⟨c, rest, ha, hne, -⟩ := print_front a
    rcases hseparator with rfl | rfl
    · simp only [printElements, ha, List.nil_append, List.cons_append, List.cons.injEq] at h
      exact absurd h.1 hne
    · simp [printElements] at h
  | a :: as, b :: bs, separator, r, s, hseparator, h => by
    simp only [printElements, List.append_assoc, List.append_cancel_left_eq] at h
    obtain ⟨rfl, hrest⟩ := print_inj a b (noDigit_printElements as r) (noDigit_printElements bs s) h
    obtain ⟨rfl, hrs⟩ := printElements_inj as bs (Or.inr rfl) hrest
    exact ⟨rfl, hrs⟩

theorem printMembers_inj : ∀ (as bs : List (List Char × Json)) {separator r s : List Char},
    separator = [] ∨ separator = [','] →
    printMembers separator as ++ r = printMembers separator bs ++ s → as = bs ∧ r = s
  | [], [], _, r, s, _, h => ⟨rfl, List.append_cancel_left h⟩
  | [], (_, _) :: bs, separator, r, s, hseparator, h => by
    rcases hseparator with rfl | rfl <;> simp [printMembers, printMember, printString] at h
  | (_, _) :: as, [], separator, r, s, hseparator, h => by
    rcases hseparator with rfl | rfl <;> simp [printMembers, printMember, printString] at h
  | a :: as, b :: bs, separator, r, s, hseparator, h => by
    simp only [printMembers, List.append_assoc, List.append_cancel_left_eq] at h
    obtain ⟨rfl, hrest⟩ := printMember_inj a b (noDigit_printMembers as r)
      (noDigit_printMembers bs s) h
    obtain ⟨rfl, hrs⟩ := printMembers_inj as bs (Or.inr rfl) hrest
    exact ⟨rfl, hrs⟩

theorem printMember_inj : ∀ (a b : List Char × Json) {r s : List Char}, NoDigit r → NoDigit s →
    printMember a ++ r = printMember b ++ s → a = b ∧ r = s
  | (key, value), (key', value'), r, s, hr, hs, h => by
    simp only [printMember, List.append_assoc, List.cons_append] at h
    obtain ⟨rfl, hrest⟩ := printString_inj h
    obtain ⟨rfl, hrs⟩ := print_inj value value' hr hs (List.cons.inj hrest).2
    exact ⟨rfl, hrs⟩

end

theorem print_injective {a b : Json} (h : print a = print b) : a = b := by
  have hnil : NoDigit [] := by rintro _ ⟨⟩
  exact (print_inj a b hnil hnil (by rw [h])).1

/-! ## Lengths -/

theorem length_encode_le_escape (c : Char) :
    (Utf8.encode [c]).length ≤ (Utf8.encode (escape c)).length := by
  unfold escape
  split_ifs with hquote hback h8 h9 ha hc hd hcontrol
  · rw [hquote]; decide
  · rw [hback]; decide
  · rw [h8]; decide
  · rw [h9]; decide
  · rw [ha]; decide
  · rw [hc]; decide
  · rw [hd]; decide
  · have hsize := c.utf8Size_le_four
    simp only [Utf8.encode_cons, Utf8.encode_nil, List.length_append, String.length_utf8EncodeChar,
      List.length_nil]
    have hslash : '\\'.utf8Size = 1 := rfl
    have hu : 'u'.utf8Size = 1 := rfl
    have hzero : '0'.utf8Size = 1 := rfl
    omega
  · exact le_rfl

theorem length_encode_le_flatMap_escape (text : List Char) :
    (Utf8.encode text).length ≤ (Utf8.encode (text.flatMap escape)).length := by
  induction text with
  | nil => exact le_rfl
  | cons c text ih =>
    have hchar := length_encode_le_escape c
    rw [List.flatMap_cons, ← List.singleton_append, Utf8.encode_append, Utf8.encode_append,
      List.length_append, List.length_append]
    omega

/-- A string is printed with at least its own bytes and the quotes. -/
theorem length_le_printString (text : List Char) :
    (Utf8.encode text).length ≤ (Utf8.encode (printString text)).length := by
  have h := length_encode_le_flatMap_escape text
  unfold printString
  rw [List.cons_append, Utf8.encode_cons, List.length_append, Utf8.encode_append,
    List.length_append]
  omega

mutual

theorem textBytes_le : ∀ value : Json, value.textBytes ≤ (Utf8.encode (print value)).length
  | .null => Nat.zero_le _
  | .bool _ => Nat.zero_le _
  | .number _ => Nat.zero_le _
  | .string text => by
    rw [textBytes, print]
    exact length_le_printString text
  | .array elements => by
    have h := textBytesAll_le elements []
    rw [textBytes, print, Utf8.encode_cons, List.length_append]
    omega
  | .object members => by
    have h := textBytesMembers_le members []
    rw [textBytes, print, Utf8.encode_cons, List.length_append]
    omega

theorem textBytesAll_le : ∀ (elements : List Json) (separator : List Char),
    textBytesAll elements ≤ (Utf8.encode (printElements separator elements)).length
  | [], _ => Nat.zero_le _
  | element :: elements, separator => by
    have hfirst := textBytes_le element
    have hrest := textBytesAll_le elements [',']
    rw [textBytesAll, printElements, Utf8.encode_append, Utf8.encode_append, List.length_append,
      List.length_append]
    omega

theorem textBytesMembers_le : ∀ (members : List (List Char × Json)) (separator : List Char),
    textBytesMembers members ≤ (Utf8.encode (printMembers separator members)).length
  | [], _ => Nat.zero_le _
  | member :: members, separator => by
    have hfirst := textBytesMember_le member
    have hrest := textBytesMembers_le members [',']
    rw [textBytesMembers, printMembers, Utf8.encode_append, Utf8.encode_append, List.length_append,
      List.length_append]
    omega

theorem textBytesMember_le : ∀ member : List Char × Json,
    textBytesMember member ≤ (Utf8.encode (printMember member)).length
  | (key, value) => by
    have h := textBytes_le value
    rw [textBytesMember, printMember, Utf8.encode_append, Utf8.encode_cons, List.length_append,
      List.length_append]
    omega

end

end Json

import Mathlib.Data.List.TakeWhile
import ParadoxCode.Transcode.File

/-!
# A file as a list of pieces

A file is a sequence of escape triples, readable characters and stray bytes. `scan` splits a buffer
into these pieces, and whole-file conversion is the map of one function over them
(`convertFrom_eq_ok_iff`, `convert_eq_ok_iff`): nothing of runs, widths and validator errors is
left. Decoding writes the character of every piece (`Piece.char`), encoding writes `Piece.encoded`.
-/

namespace ParadoxCode.Transcode

open Utf8 (Chunk Unreadable Splits)

/-! ## Encoding character by character -/

/-- The characters `encode_text` writes for a character it accepts. -/
def textChars (set : EscapeSet) (c : Char) : List Char :=
  if isPassthrough c.toNat then [c]
  else
    [pushChar (escapeTriple c.toNat set).1.toNat,
      pushChar (byteToChar (escapeTriple c.toNat set).2.1),
      pushChar (byteToChar (escapeTriple c.toNat set).2.2)]

/-- The bytes `encode_file` writes for a character it accepts. -/
def charBytes (profile : Profile) (set : EscapeSet) (c : Char) : List UInt8 :=
  match profile with
  | .localisation => Utf8.encode (textChars set c)
  | .script =>
    if c.toNat < 0x100 then [UInt8.ofNat c.toNat]
    else if c.toNat = 0xFEFF then [0xEF, 0xBB, 0xBF]
    else
      match mappedByte c.toNat with
      | some single => [single]
      | none => [(escapeTriple c.toNat set).1, (escapeTriple c.toNat set).2.1,
          (escapeTriple c.toNat set).2.2]

/-- The characters a profile can write. -/
def Encodable (profile : Profile) (c : Char) : Prop := fileUnencodableKind c.toNat profile = none

instance (profile : Profile) (c : Char) : Decidable (Encodable profile c) := by
  unfold Encodable; infer_instance

variable {c : Char}

theorem encodable_localisation :
    Encodable .localisation c ↔ unencodableKind c.toNat = none := Iff.rfl

theorem encodeTextFrom_spec (set : EscapeSet) (t : List Char) (i : Nat) :
    ((encodeTextFrom set t i).2 = [] ↔ ∀ c ∈ t, Encodable .localisation c) ∧
    ((∀ c ∈ t, Encodable .localisation c) →
      (encodeTextFrom set t i).1 = t.flatMap (textChars set)) := by
  induction t generalizing i with
  | nil => exact ⟨by simp [encodeTextFrom], fun _ => rfl⟩
  | cons c t ih =>
    obtain ⟨ih₁, ih₂⟩ := ih (i + c.utf8Size)
    simp only [List.forall_mem_cons, encodable_localisation] at ih₁ ih₂ ⊢
    unfold encodeTextFrom
    cases hk : unencodableKind c.toNat with
    | some kind => simp [hk]
    | none =>
      simp only [hk, true_and]
      by_cases hp : isPassthrough c.toNat = true
      · simp only [hp, if_true]
        exact ⟨ih₁, fun h => by rw [ih₂ h, List.flatMap_cons, textChars, if_pos hp]; rfl⟩
      · simp only [hp]
        exact ⟨ih₁, fun h => by rw [ih₂ h, List.flatMap_cons, textChars, if_neg hp]; rfl⟩

theorem unencodableKind_eq_none_iff {cp : Nat} :
    unencodableKind cp = none ↔ cp < 0x100 ∨ (0x1000 ≤ cp ∧ cp < 0x10000) := by
  unfold unencodableKind
  simp only [Bool.or_eq_true, decide_eq_true_eq, beq_iff_eq]
  split_ifs <;> simp <;> omega

theorem encodable_script : Encodable .script c ↔
    c.toNat < 0x100 ∨ c.toNat = 0xFEFF ∨ (mappedByte c.toNat).isSome = true ∨
      (0x1000 ≤ c.toNat ∧ c.toNat < 0x10000) := by
  unfold Encodable fileUnencodableKind
  cases hm : (mappedByte c.toNat).isSome
  · rw [show (Profile.script == .script && false) = false from rfl, if_neg Bool.false_ne_true,
      unencodableKind_eq_none_iff]
    simp; omega
  · simp

theorem encodeScriptFrom_spec (set : EscapeSet) (t : List Char) (i : Nat) :
    ((encodeScriptFrom set t i).2 = [] ↔ ∀ c ∈ t, Encodable .script c) ∧
    ((∀ c ∈ t, Encodable .script c) →
      (encodeScriptFrom set t i).1 = t.flatMap (charBytes .script set)) := by
  induction t generalizing i with
  | nil => exact ⟨by simp [encodeScriptFrom], fun _ => rfl⟩
  | cons c t ih =>
    obtain ⟨ih₁, ih₂⟩ := ih (i + c.utf8Size)
    simp only [List.forall_mem_cons, List.flatMap_cons]
    unfold encodeScriptFrom
    dsimp only
    by_cases h₁ : c.toNat < 0x100
    · have he : Encodable .script c := encodable_script.mpr (Or.inl h₁)
      simp only [h₁, if_true, he, true_and]
      exact ⟨ih₁, fun h => by rw [ih₂ h]; simp [charBytes, h₁]⟩
    by_cases h₂ : c.toNat = 0xFEFF
    · have he : Encodable .script c := encodable_script.mpr (Or.inr (Or.inl h₂))
      rw [if_neg h₁, if_pos h₂]
      simp only [he, true_and]
      exact ⟨ih₁, fun h => by rw [ih₂ h]; simp [charBytes, h₂]⟩
    cases hm : mappedByte c.toNat with
    | some single =>
      have he : Encodable .script c := encodable_script.mpr
        (Or.inr (Or.inr (Or.inl (by rw [hm]; rfl))))
      simp only [h₁, h₂, if_false, he, true_and]
      exact ⟨ih₁, fun h => by rw [ih₂ h]; simp [charBytes, h₁, h₂, hm]⟩
    | none =>
      have hk : Encodable .script c ↔ unencodableKind c.toNat = none := by
        unfold Encodable fileUnencodableKind; rw [hm]; rfl
      simp only [h₁, h₂, if_false, hk]
      cases hu : unencodableKind c.toNat with
      | some kind => simp
      | none =>
        simp only [true_and]
        exact ⟨ih₁, fun h => by rw [ih₂ h]; simp [charBytes, h₁, h₂, hm]⟩

theorem finish_eq_ok_iff {α : Type} {output b : α} {unencodable : List UnencodableCodePoint} :
    finish output unencodable = .ok b ↔ unencodable = [] ∧ output = b := by
  unfold finish
  cases unencodable <;> simp

variable {profile : Profile}

/-- `encode_file` accepts a text of encodable characters and writes them one after another. -/
theorem encodeFile_eq_ok_iff {t : List Char} {set : EscapeSet} {b : List UInt8} :
    encodeFile t profile set = .ok b ↔
      (∀ c ∈ t, Encodable profile c) ∧ b = t.flatMap (charBytes profile set) := by
  cases profile with
  | localisation =>
    obtain ⟨h₁, h₂⟩ := encodeTextFrom_spec set t 0
    have hflat : ∀ u : List Char, Utf8.encode (u.flatMap (textChars set)) =
        u.flatMap (charBytes .localisation set) := by
      intro u
      induction u with
      | nil => rfl
      | cons c u ih => rw [List.flatMap_cons, Utf8.encode_append, ih, List.flatMap_cons]; rfl
    unfold encodeFile encodeText
    dsimp only
    constructor
    · intro h
      cases hf : finish (encodeTextFrom set t 0).1 (encodeTextFrom set t 0).2 with
      | error e => rw [hf] at h; cases h
      | ok out =>
        rw [hf] at h
        obtain ⟨hn, rfl⟩ := finish_eq_ok_iff.mp hf
        have he := h₁.mp hn
        refine ⟨he, ?_⟩
        rw [h₂ he] at h
        rw [← hflat]
        exact (Except.ok.inj h).symm
    · rintro ⟨he, rfl⟩
      rw [finish_eq_ok_iff.mpr ⟨h₁.mpr he, h₂ he⟩, ← hflat]
      rfl
  | script =>
    obtain ⟨h₁, h₂⟩ := encodeScriptFrom_spec set t 0
    unfold encodeFile
    dsimp only
    rw [finish_eq_ok_iff, h₁]
    constructor
    · rintro ⟨he, rfl⟩; exact ⟨he, h₂ he⟩
    · rintro ⟨he, rfl⟩; exact ⟨he, h₂ he⟩

/-! ## Triples in a buffer -/

/-- The byte a payload character spells. -/
def payloadByte (c : Char) : Option UInt8 :=
  if c.toNat < 0x100 then some (UInt8.ofNat c.toNat) else mappedByte c.toNat

variable {b : UInt8}

theorem payloadWidth_encodeChar {tl : List UInt8}
    (h : String.utf8EncodeChar c = b :: tl) : payloadWidth b = some (tl.length + 1) := by
  have hv := Utf8.toNat_valid c
  unfold Nat.isValidChar at hv
  rcases Utf8.encodeChar_shape c with ⟨h', e⟩ | ⟨h', h'', e⟩ | ⟨h', h'', e⟩ | ⟨h', h'', e⟩ <;>
    rw [h, List.cons.injEq] at e <;> obtain ⟨rfl, rfl⟩ := e <;> unfold payloadWidth <;>
    rw [Utf8.toNat_byte (by omega)]
  · rw [if_pos (by omega)]; rfl
  · rw [if_neg (by omega), if_pos (by omega)]; rfl
  · rw [if_neg (by omega), if_neg (by omega), if_pos (by omega)]; rfl
  · rw [if_neg (by omega), if_neg (by omega), if_neg (by omega), if_pos (by omega)]; rfl

theorem payloadCharacter_encodeChar (c : Char) (rest : List UInt8) :
    payloadCharacter (String.utf8EncodeChar c ++ rest) =
      (payloadByte c).map fun byte => ((String.utf8EncodeChar c).length, byte) := by
  obtain ⟨b, tl, e, -⟩ := Utf8.encodeChar_cons c
  have hw := payloadWidth_encodeChar e
  have htake : (String.utf8EncodeChar c ++ rest).take (tl.length + 1) = Utf8.encode [c] := by
    rw [Utf8.encode_cons, Utf8.encode_nil, List.append_nil]
    exact List.take_left' (by rw [e, List.length_cons])
  have hlen : ¬ (String.utf8EncodeChar c ++ rest).length < tl.length + 1 := by
    rw [List.length_append, e, List.length_cons]; omega
  have hc : (String.utf8EncodeChar c).length = tl.length + 1 := by rw [e, List.length_cons]
  rw [hc]
  unfold payloadCharacter payloadByte
  split
  · rename_i h'; rw [e] at h'; cases h'
  · rename_i first tail h'
    have hb : first = b := by rw [e] at h'; exact (List.cons.inj h').1.symm
    rw [hb, hw]
    simp only [if_neg hlen, htake, Utf8.fromUtf8_encode]
    split_ifs <;> rfl

/-- `payload_character` reads one written character. -/
theorem exists_of_payloadCharacter {input : List UInt8} {w : Nat} {byte : UInt8}
    (h : payloadCharacter input = some (w, byte)) : ∃ c rest,
      input = String.utf8EncodeChar c ++ rest ∧ w = (String.utf8EncodeChar c).length ∧
        payloadByte c = some byte := by
  unfold payloadCharacter at h
  split at h
  · cases h
  rename_i first tail
  split at h
  · cases h
  rename_i width hwidth
  split_ifs at h with hlen
  split at h
  · cases h
  · cases h
  rename_i c cs hok
  have htake := Utf8.fromUtf8_eq_ok_iff.mp hok
  rw [Utf8.encode_cons] at htake
  obtain ⟨b, tl, e, -⟩ := Utf8.encodeChar_cons c
  have hinput : first :: tail = String.utf8EncodeChar c ++
      (Utf8.encode cs ++ (first :: tail).drop width) := by
    rw [← List.append_assoc, ← htake, List.take_append_drop]
  have hw : width = (String.utf8EncodeChar c).length := by
    have hb : first = b := by rw [e] at hinput; exact (List.cons.inj hinput).1
    rw [hb, payloadWidth_encodeChar e] at hwidth
    rw [e, List.length_cons]
    exact (Option.some.inj hwidth).symm
  refine ⟨c, _, hinput, ?_⟩
  unfold payloadByte
  split_ifs at h with hlt
  · cases h
    exact ⟨hw, by rw [if_pos hlt]⟩
  · rw [Option.map_eq_some_iff] at h
    obtain ⟨byte', hb, he⟩ := h
    cases he
    exact ⟨hw, by rw [if_neg hlt]; exact hb⟩

theorem payload_localisation {m : UInt8} {c₁ c₂ : Char} {low high : UInt8}
    (h₁ : payloadByte c₁ = some low) (h₂ : payloadByte c₂ = some high) (rest : List UInt8) :
    payload .localisation (m :: Utf8.encode [c₁, c₂] ++ rest) =
      some ((Utf8.encode [c₁, c₂]).length + 1, low, high) := by
  have henc : Utf8.encode [c₁, c₂] = String.utf8EncodeChar c₁ ++ String.utf8EncodeChar c₂ := by
    simp
  unfold payload
  rw [henc]
  dsimp only
  rw [List.cons_append, List.drop_one, List.tail_cons, List.append_assoc,
    payloadCharacter_encodeChar, h₁]
  dsimp only [Option.map_some]
  rw [Nat.add_comm 1, List.drop_succ_cons, List.drop_left, payloadCharacter_encodeChar, h₂,
    List.length_append]
  simp only [Option.map_some]
  congr 2
  omega

/-- The payload behind a marker occupies the same bytes whatever follows it. -/
theorem exists_of_payload {m : UInt8} {tail : List UInt8} {w : Nat}
    {low high : UInt8} (h : payload profile (m :: tail) = some (w, low, high)) :
    ∃ body rest, tail = body ++ rest ∧ w = body.length + 1 ∧
      (∀ rest', payload profile (m :: body ++ rest') = some (w, low, high)) ∧
      (profile = .script → body = [low, high]) ∧
      (profile = .localisation → ∃ c₁ c₂, body = Utf8.encode [c₁, c₂] ∧ payloadByte c₁ = some low ∧
        payloadByte c₂ = some high) := by
  cases profile with
  | script =>
    simp only [payload] at h
    split at h
    · rename_i heq
      cases h
      cases heq
      exact ⟨[low, high], _, rfl, rfl, fun _ => rfl, fun _ => rfl, by rintro ⟨⟩⟩
    · cases h
  | localisation =>
    simp only [payload] at h
    split at h
    · cases h
    rename_i lowWidth low' hlow
    split at h
    · cases h
    rename_i highWidth high' hhigh
    cases h
    rw [List.drop_one, List.tail_cons] at hlow
    obtain ⟨c₁, rest₁, rfl, rfl, hb₁⟩ := exists_of_payloadCharacter hlow
    rw [Nat.add_comm, List.drop_succ_cons, List.drop_left] at hhigh
    obtain ⟨c₂, rest₂, rfl, rfl, hb₂⟩ := exists_of_payloadCharacter hhigh
    have hbody : Utf8.encode [c₁, c₂] = String.utf8EncodeChar c₁ ++ String.utf8EncodeChar c₂ := by
      simp
    refine ⟨Utf8.encode [c₁, c₂], rest₂, ?_, ?_, fun rest' => ?_, by rintro ⟨⟩,
      fun _ => ⟨c₁, c₂, rfl, hb₁, hb₂⟩⟩
    · rw [hbody, List.append_assoc]
    · rw [hbody, List.length_append]; omega
    · rw [payload_localisation hb₁ hb₂, hbody, List.length_append]
      congr 2
      omega

/-- The character a triple denotes, where `escape_at` accepts it. -/
def Denotes (marker low high : UInt8) (c : Char) : Prop :=
  PayloadAllowed marker low high ∧ reconstruct marker.toNat low high = c.toNat ∧
    0x1000 ≤ c.toNat ∧ c.toNat < 0x10000

theorem charFromU32_eq_some_iff {cp : Nat} : charFromU32 cp = some c ↔ c.toNat = cp := by
  unfold charFromU32
  constructor
  · intro h
    split_ifs at h with hv
    rw [← Option.some.inj h, Utf8.toNat_charOf hv]
  · rintro rfl
    rw [if_pos (Utf8.toNat_valid c), Utf8.charOf_toNat]

theorem escapeAt_eq_ok_iff {m : UInt8} {tail : List UInt8} {start : Nat}
    {w : Nat} : escapeAt (m :: tail) start profile = .ok (w, c) ↔
      ∃ low high, payload profile (m :: tail) = some (w, low, high) ∧ Denotes m low high c := by
  unfold escapeAt
  dsimp only
  cases hp : payload profile (m :: tail) with
  | none => simp
  | some p =>
    obtain ⟨w', low, high⟩ := p
    simp only [Option.some.injEq, Prod.mk.injEq, Denotes, PayloadAllowed]
    constructor
    · intro h
      split_ifs at h with h₁ h₂
      · split at h
        · rename_i c' hc
          cases h
          rw [charFromU32_eq_some_iff] at hc
          refine ⟨low, high, ⟨rfl, rfl, rfl⟩, ⟨fun hl => ?_, ?_⟩, hc.symm, by omega, by omega⟩
          · by_contra hn; exact h₁ (Or.inl ⟨hl, hn⟩)
          · by_contra hn; exact h₁ (Or.inr (by simpa using hn))
        · cases h
    · rintro ⟨_, _, ⟨rfl, rfl, rfl⟩, ⟨hl, hh⟩, hr, h₁, h₂⟩
      rw [if_neg (by rintro (⟨ha, hn⟩ | hn); exacts [hn (hl ha), by rw [hh] at hn; cases hn]),
        if_neg (by omega), charFromU32_eq_some_iff.mpr hr.symm]

/-- `raw` is a whole triple of the profile and denotes `c`. -/
def IsTriple (profile : Profile) (raw : List UInt8) (c : Char) : Prop :=
  ∃ m body low high, raw = m :: body ∧ isMarkerByte m = true ∧ Denotes m low high c ∧
    (∀ rest, payload profile (m :: body ++ rest) = some (raw.length, low, high)) ∧
    (profile = .script → body = [low, high]) ∧
    (profile = .localisation → ∃ c₁ c₂, body = Utf8.encode [c₁, c₂] ∧ payloadByte c₁ = some low ∧
      payloadByte c₂ = some high)

theorem IsTriple.escapeAt {profile : Profile} {raw : List UInt8} {c : Char}
    (h : IsTriple profile raw c) (rest : List UInt8) (start : Nat) :
    escapeAt (raw ++ rest) start profile = .ok (raw.length, c) := by
  obtain ⟨m, body, low, high, rfl, -, hd, hp, -⟩ := h
  exact escapeAt_eq_ok_iff.mpr ⟨low, high, hp rest, hd⟩

theorem exists_of_escapeAt {m : UInt8} {tail : List UInt8} {start : Nat}
    {w : Nat} (hm : isMarkerByte m = true)
    (h : Transcode.escapeAt (m :: tail) start profile = .ok (w, c)) :
    ∃ raw rest, m :: tail = raw ++ rest ∧ w = raw.length ∧ IsTriple profile raw c := by
  obtain ⟨low, high, hp, hd⟩ := escapeAt_eq_ok_iff.mp h
  obtain ⟨body, rest, rfl, rfl, hp', hs, hl⟩ := exists_of_payload hp
  exact ⟨m :: body, rest, rfl, rfl, m, body, low, high, rfl, hm, hd, hp', hs, hl⟩

/-! ## Pieces -/

/-- A piece of a file: a whole triple with the character it denotes, or a chunk of a run. -/
inductive Piece where
  | triple (raw : List UInt8) (c : Char)
  | chunk (k : Chunk)
  deriving DecidableEq

namespace Piece

/-- The bytes of a piece in the file. -/
def bytes : Piece → List UInt8
  | triple raw _ => raw
  | chunk k => k.bytes

/-- The character a piece stands for. -/
def char : Piece → Char
  | triple _ c => c
  | chunk (.char c) => c
  | chunk (.byte b) => byteChar b

/-- The bytes a piece is decoded to. -/
def decoded (p : Piece) : List UInt8 := String.utf8EncodeChar p.char

/-- The bytes a piece is encoded to. -/
def encoded (profile : Profile) (set : EscapeSet) : Piece → List UInt8
  | triple raw _ => raw
  | chunk (.char c) => charBytes profile set c
  | chunk (.byte b) => [b]

/-- Encoding accepts the piece. -/
def Accepted (profile : Profile) : Piece → Prop
  | triple _ _ => True
  | chunk (.char c) => Encodable profile c
  | chunk (.byte _) => profile = .script

/-- A piece as `scan` cuts it: a triple is one of the profile, a run holds no marker. -/
def WellFormed (profile : Profile) : Piece → Prop
  | triple raw c => IsTriple profile raw c
  | chunk (.char c) => isMarkerCodePoint c.toNat = false
  | chunk (.byte b) => 0x80 ≤ b.toNat

end Piece

theorem isMarkerByte_iff : isMarkerByte b = true ↔ 0x10 ≤ b.toNat ∧ b.toNat ≤ 0x13 := by
  simp [isMarkerByte]

theorem isMarkerCodePoint_iff {cp : Nat} : isMarkerCodePoint cp = true ↔ 0x10 ≤ cp ∧ cp ≤ 0x13 := by
  simp [isMarkerCodePoint]

theorem isMarkerByte_eq_false (h : 0x80 ≤ b.toNat) : isMarkerByte b = false := by
  rw [← Bool.not_eq_true, isMarkerByte_iff]; omega

/-- The bytes of a character that is no marker are no markers. -/
theorem isMarkerByte_of_mem_encodeChar (h : isMarkerCodePoint c.toNat = false)
    (hb : b ∈ String.utf8EncodeChar c) : isMarkerByte b = false := by
  rw [← Bool.not_eq_true, isMarkerCodePoint_iff] at h
  rcases Nat.lt_or_ge c.toNat 0x80 with hc | hc
  · rw [Utf8.encodeChar_ascii hc, List.mem_singleton] at hb
    rw [hb, ← Bool.not_eq_true, isMarkerByte_iff, Utf8.toNat_byte (by omega)]; omega
  · exact isMarkerByte_eq_false (Utf8.le_of_mem_encodeChar hc hb)

/-- A marker character is its one byte. -/
theorem encodeChar_marker (h : isMarkerCodePoint c.toNat = true) :
    ∃ b, String.utf8EncodeChar c = [b] ∧ isMarkerByte b = true ∧ b.toNat = c.toNat := by
  rw [isMarkerCodePoint_iff] at h
  have hb : (UInt8.ofNat c.toNat).toNat = c.toNat := Utf8.toNat_byte (by omega)
  exact ⟨_, Utf8.encodeChar_ascii (by omega), by rw [isMarkerByte_iff, hb]; exact h, hb⟩

theorem splits_marker {rest : List UInt8} (h : isMarkerByte b = true) : Splits (b :: rest) := by
  rw [isMarkerByte_iff] at h
  refine Utf8.splits_cons ?_
  rw [← Bool.not_eq_true, Utf8.isContinuation_iff]; omega

/-! ## Scanning -/

def scanFrom (profile : Profile) : Nat → List UInt8 → Option (List Piece)
  | 0, _ => some []
  | _ + 1, [] => some []
  | fuel + 1, b :: rest =>
    if isMarkerByte b then
      match escapeAt (b :: rest) 0 profile with
      | .error _ => none
      | .ok (width, c) => (scanFrom profile fuel ((b :: rest).drop width)).map
          (.triple ((b :: rest).take width) c :: ·)
    else
      match Utf8.decodeFirst (b :: rest) with
      | .char c rest' => (scanFrom profile fuel rest').map (.chunk (.char c) :: ·)
      | _ => (scanFrom profile fuel rest).map (.chunk (.byte b) :: ·)

example (profile : Profile) : scanFrom profile 1 [] = some [] := by rw [scanFrom]

/-- The pieces of a file, or none where a triple is damaged. -/
def scan (profile : Profile) (x : List UInt8) : Option (List Piece) := scanFrom profile x.length x

section Scan

variable {profile : Profile}

variable {x : List UInt8}

theorem scanFrom_eq {n m : Nat} (hn : x.length ≤ n) (hm : x.length ≤ m) :
    scanFrom profile n x = scanFrom profile m x := by
  induction n generalizing m x with
  | zero =>
    rw [List.eq_nil_of_length_eq_zero (Nat.le_zero.mp hn)]
    cases m <;> rfl
  | succ n ih =>
    cases x with
    | nil => cases m <;> rfl
    | cons b rest =>
      cases m with
      | zero => simp at hm
      | succ m =>
        have hn' := hn
        have hm' := hm
        rw [List.length_cons] at hn' hm'
        unfold scanFrom
        split_ifs with hb
        · cases he : escapeAt (b :: rest) 0 profile with
          | error e => rfl
          | ok p =>
            obtain ⟨raw, rest', hx, hw, ht⟩ := exists_of_escapeAt hb (w := p.1) (c := p.2) he
            obtain ⟨m', body, _, _, rfl, -⟩ := ht
            have hlen := congrArg List.length hx
            simp only [List.length_append, List.length_cons] at hlen
            have hd : ((b :: rest).drop p.1).length ≤ rest.length := by
              rw [hw, hx, List.drop_left]; omega
            simp only
            rw [ih (m := m) (by omega) (by omega)]
        · split
          · rename_i c rest' hc
            have hlen := congrArg List.length (Utf8.eq_of_decodeFirst_char hc)
            have hpos := Utf8.length_encodeChar_pos c
            rw [List.length_append, List.length_cons] at hlen
            rw [ih (m := m) (by omega) (by omega)]
          · rw [ih (m := m) (by omega) (by omega)]

@[simp] theorem scan_nil : scan profile [] = some [] := rfl

theorem scan_triple {raw rest : List UInt8} {c : Char} (h : IsTriple profile raw c) :
    scan profile (raw ++ rest) = (scan profile rest).map (.triple raw c :: ·) := by
  have he := h.escapeAt rest 0
  obtain ⟨m, body, _, _, rfl, hm, -⟩ := h
  unfold scan
  rw [List.cons_append] at he ⊢
  rw [List.length_cons, scanFrom, if_pos hm, he]
  simp only [List.length_cons, List.drop_succ_cons, List.take_succ_cons, List.drop_left,
    List.take_left]
  rw [scanFrom_eq (m := rest.length) (by simp) le_rfl]

theorem scan_damaged {m : UInt8} {tail : List UInt8} (hm : isMarkerByte m = true)
    {e : FileConversionError} (h : escapeAt (m :: tail) 0 profile = .error e) :
    scan profile (m :: tail) = none := by
  unfold scan
  rw [List.length_cons, scanFrom, if_pos hm, h]

theorem scan_char {c : Char} (h : isMarkerCodePoint c.toNat = false) (rest : List UInt8) :
    scan profile (String.utf8EncodeChar c ++ rest) =
      (scan profile rest).map (.chunk (.char c) :: ·) := by
  obtain ⟨b, tl, e, -⟩ := Utf8.encodeChar_cons c
  have hb : isMarkerByte b = false := isMarkerByte_of_mem_encodeChar h (by rw [e]; simp)
  have hd := Utf8.decodeFirst_encodeChar c rest
  rw [e, List.cons_append] at hd ⊢
  unfold scan
  rw [List.length_cons, scanFrom, hb, if_neg Bool.false_ne_true, hd]
  simp only
  rw [scanFrom_eq (m := rest.length) (by simp) le_rfl]

theorem le_of_unreadable {b : UInt8} {rest : List UInt8} (h : Unreadable (b :: rest)) :
    0x80 ≤ b.toNat := by
  by_contra hb
  refine h (Utf8.charOf b.toNat) rest ?_
  unfold Utf8.decodeFirst
  simp only
  rw [if_pos (by omega)]

theorem scan_byte {b : UInt8} {rest : List UInt8} (h : Unreadable (b :: rest)) :
    scan profile (b :: rest) = (scan profile rest).map (.chunk (.byte b) :: ·) := by
  have hb := isMarkerByte_eq_false (le_of_unreadable h)
  unfold scan
  rw [List.length_cons, scanFrom, hb, if_neg Bool.false_ne_true]
  split
  · rename_i c rest' hc
    exact absurd hc (h c rest')
  · rfl

/-- Reading a file from its front: a triple, a damaged triple, a character or a stray byte. -/
theorem file_induction (profile : Profile) {P : List UInt8 → Prop} (nil : P [])
    (triple : ∀ raw c rest, IsTriple profile raw c → P rest → P (raw ++ rest))
    (damaged : ∀ m tail e, isMarkerByte m = true → escapeAt (m :: tail) 0 profile = .error e →
      P (m :: tail)) (char : ∀ c rest, isMarkerCodePoint c.toNat = false → P rest →
      P (String.utf8EncodeChar c ++ rest))
    (byte : ∀ b rest, Unreadable (b :: rest) → P rest → P (b :: rest)) : ∀ x, P x := by
  intro x
  induction hn : x.length using Nat.strong_induction_on generalizing x with
  | _ n ih =>
    cases x with
    | nil => exact nil
    | cons b rest =>
      by_cases hm : isMarkerByte b = true
      · cases he : escapeAt (b :: rest) 0 profile with
        | error e => exact damaged b rest e hm he
        | ok p =>
          obtain ⟨raw, rest', hx, -, ht⟩ := exists_of_escapeAt hm (w := p.1) (c := p.2) he
          have hlen := congrArg List.length hx
          have hpos : 0 < raw.length := by
            obtain ⟨_, _, _, _, rfl, -⟩ := ht
            simp
          rw [List.length_append] at hlen
          rw [hx]
          exact triple raw p.2 rest' ht (ih rest'.length (by omega) rest' rfl)
      · by_cases hu : Unreadable (b :: rest)
        · exact byte b rest hu (ih rest.length (by rw [← hn]; simp) rest rfl)
        · simp only [Unreadable, not_forall, not_not] at hu
          obtain ⟨c, rest', hc⟩ := hu
          have hbs := Utf8.eq_of_decodeFirst_char hc
          have hlen := congrArg List.length hbs
          have hpos := Utf8.length_encodeChar_pos c
          rw [List.length_append] at hlen
          have hcm : isMarkerCodePoint c.toNat = false := by
            by_contra hcm
            obtain ⟨b', hb', hmb, -⟩ := encodeChar_marker (Bool.eq_true_of_not_eq_false hcm)
            rw [hb', List.singleton_append] at hbs
            exact hm (by rw [(List.cons.inj hbs).1]; exact hmb)
          rw [hbs]
          exact char c rest' hcm (ih rest'.length (by omega) rest' rfl)

variable {ps : List Piece}

/-- The pieces of a file spell it and are well formed. -/
theorem scan_spec (h : scan profile x = some ps) :
    x = ps.flatMap Piece.bytes ∧ ∀ p ∈ ps, p.WellFormed profile := by
  induction x using file_induction profile generalizing ps with
  | nil => cases h; exact ⟨rfl, by simp⟩
  | triple raw c rest ht ih =>
    rw [scan_triple ht, Option.map_eq_some_iff] at h
    obtain ⟨qs, hq, rfl⟩ := h
    obtain ⟨h₁, h₂⟩ := ih hq
    exact ⟨by rw [List.flatMap_cons, ← h₁]; rfl, List.forall_mem_cons.mpr ⟨ht, h₂⟩⟩
  | damaged m tail e hm he => rw [scan_damaged hm he] at h; cases h
  | char c rest hc ih =>
    rw [scan_char hc, Option.map_eq_some_iff] at h
    obtain ⟨qs, hq, rfl⟩ := h
    obtain ⟨h₁, h₂⟩ := ih hq
    exact ⟨by rw [List.flatMap_cons, ← h₁]; rfl, List.forall_mem_cons.mpr ⟨hc, h₂⟩⟩
  | byte b rest hu ih =>
    rw [scan_byte hu, Option.map_eq_some_iff] at h
    obtain ⟨qs, hq, rfl⟩ := h
    obtain ⟨h₁, h₂⟩ := ih hq
    exact ⟨by rw [List.flatMap_cons, ← h₁]; rfl,
      List.forall_mem_cons.mpr ⟨le_of_unreadable hu, h₂⟩⟩

/-- A file without damage is scanned as if nothing followed, up to the next split. -/
theorem scan_append {s : List UInt8} (h : scan profile x = some ps)
    (hs : Splits s) : scan profile (x ++ s) = (scan profile s).map (ps ++ ·) := by
  induction x using file_induction profile generalizing ps with
  | nil => cases h; simp
  | triple raw c rest ht ih =>
    rw [scan_triple ht, Option.map_eq_some_iff] at h
    obtain ⟨qs, hq, rfl⟩ := h
    rw [List.append_assoc, scan_triple ht, ih hq, Option.map_map]
    rfl
  | damaged m tail e hm he => rw [scan_damaged hm he] at h; cases h
  | char c rest hc ih =>
    rw [scan_char hc, Option.map_eq_some_iff] at h
    obtain ⟨qs, hq, rfl⟩ := h
    rw [List.append_assoc, scan_char hc, ih hq, Option.map_map]
    rfl
  | byte b rest hu ih =>
    rw [scan_byte hu, Option.map_eq_some_iff] at h
    obtain ⟨qs, hq, rfl⟩ := h
    rw [List.cons_append, scan_byte (Utf8.unreadable_append hu hs), ih hq, Option.map_map]
    rfl

/-- A run without markers scans to its chunks. -/
theorem scan_run {run : List UInt8} (h : ∀ b ∈ run, isMarkerByte b = false) :
    scan profile run = some ((Utf8.lossy run).map .chunk) := by
  induction run using Utf8.bytes_induction with
  | nil => rfl
  | char c rest ih =>
    have hc : isMarkerCodePoint c.toNat = false := by
      by_contra hc
      obtain ⟨b, hb, hmb, -⟩ := encodeChar_marker (Bool.eq_true_of_not_eq_false hc)
      rw [h b (by rw [hb]; simp)] at hmb
      cases hmb
    rw [scan_char hc, ih fun b hb => h b (List.mem_append_right _ hb), Utf8.lossy_char]
    rfl
  | byte b rest hu ih =>
    rw [scan_byte hu, ih fun b hb => h b (List.mem_cons_of_mem _ hb), Utf8.lossy_byte hu]
    rfl

theorem scan_piece {p : Piece} (hw : p.WellFormed profile) (hb : ∀ b, p ≠ .chunk (.byte b))
    (rest : List UInt8) : scan profile (p.bytes ++ rest) = (scan profile rest).map (p :: ·) := by
  cases p with
  | triple raw c => exact scan_triple hw
  | chunk k =>
    cases k with
    | char c => exact scan_char hw rest
    | byte b => exact absurd rfl (hb b)

/-- A list of well-formed pieces without stray bytes is what its bytes scan to. -/
theorem scan_flatMap (hw : ∀ p ∈ ps, p.WellFormed profile)
    (hb : ∀ p ∈ ps, ∀ b, p ≠ .chunk (.byte b)) : scan profile (ps.flatMap Piece.bytes) =
      some ps := by
  induction ps with
  | nil => rfl
  | cons p ps ih =>
    rw [List.forall_mem_cons] at hw hb
    rw [List.flatMap_cons, scan_piece hw.1 hb.1, ih hw.2 hb.2]
    rfl

/-- The pieces behind the first one are the pieces of the rest of the file. -/
theorem scan_of_cons {p : Piece} (h : scan profile x = some (p :: ps)) :
    ∃ rest, x = p.bytes ++ rest ∧ scan profile rest = some ps := by
  cases x using file_induction profile with
  | nil => cases h
  | triple raw c rest ht ih =>
    rw [scan_triple ht, Option.map_eq_some_iff] at h
    obtain ⟨qs, hq, he⟩ := h
    cases he
    exact ⟨rest, rfl, hq⟩
  | damaged m tail e hm he => rw [scan_damaged hm he] at h; cases h
  | char c rest hc ih =>
    rw [scan_char hc, Option.map_eq_some_iff] at h
    obtain ⟨qs, hq, he⟩ := h
    cases he
    exact ⟨rest, rfl, hq⟩
  | byte b rest hu ih =>
    rw [scan_byte hu, Option.map_eq_some_iff] at h
    obtain ⟨qs, hq, he⟩ := h
    cases he
    exact ⟨rest, rfl, hq⟩

theorem scan_of_append {qs : List Piece} (h : scan profile x = some (ps ++ qs)) :
    ∃ rest, x = ps.flatMap Piece.bytes ++ rest ∧ scan profile rest = some qs := by
  induction ps generalizing x with
  | nil => exact ⟨x, rfl, h⟩
  | cons p ps ih =>
    obtain ⟨rest, rfl, hr⟩ := scan_of_cons h
    obtain ⟨rest', rfl, hr'⟩ := ih hr
    exact ⟨rest', by rw [List.flatMap_cons, List.append_assoc], hr'⟩

end Scan

/-! ## Written triples -/

theorem pushChar_toNat (c : Char) : pushChar c.toNat = c := by
  rw [pushChar, charFromU32_eq_some_iff.mpr rfl, Option.getD_some]

theorem pushChar_byteToChar (b : UInt8) : pushChar (byteToChar b) = byteChar b := by
  rw [← toNat_byteChar, pushChar_toNat]

theorem payloadByte_byteChar (b : UInt8) : payloadByte (byteChar b) = some b := by
  unfold payloadByte
  rw [toNat_byteChar]
  rcases byteToChar_cases b with h | ⟨-, -, hge, -, h⟩
  · rw [if_pos (by rw [h]; exact b.toNat_lt), h, UInt8.ofNat_toNat]
  · rw [if_neg (by omega), h]

theorem charToByte_of_payloadByte (h : payloadByte c = some b) : charToByte c.toNat = b := by
  unfold payloadByte at h
  split_ifs at h with hlt
  · rw [charToByte_of_lt hlt]; exact Option.some.inj h
  · exact charToByte_of_mappedByte h

/-- The character of a marker byte is encoded as that byte. -/
theorem encodeChar_pushChar_marker {m : UInt8} (h : isMarkerByte m = true) :
    String.utf8EncodeChar (pushChar m.toNat) = [m] := by
  rw [isMarkerByte_iff] at h
  have hm : (Utf8.charOf m.toNat).toNat = m.toNat :=
    Utf8.toNat_charOf (by unfold Nat.isValidChar; omega)
  rw [pushChar, charFromU32_eq_some_iff.mpr hm, Option.getD_some,
    Utf8.encodeChar_ascii (by omega), hm, UInt8.ofNat_toNat]

/-- The triple of an encodable character past the passthrough range is whole and denotes it. -/
theorem isTriple_of_escapeTriple (profile : Profile) (set : EscapeSet)
    (h₁ : 0x1000 ≤ c.toNat) (h₂ : c.toNat < 0x10000) :
    IsTriple profile
      (match profile with
      | .localisation => Utf8.encode [pushChar (escapeTriple c.toNat set).1.toNat,
          byteChar (escapeTriple c.toNat set).2.1, byteChar (escapeTriple c.toNat set).2.2]
      | .script => [(escapeTriple c.toNat set).1, (escapeTriple c.toNat set).2.1,
          (escapeTriple c.toNat set).2.2]) c := by
  obtain ⟨hm, hr, hp⟩ := escapeTriple_spec set h₁ h₂
  generalize escapeTriple c.toNat set = t at hm hr hp ⊢
  obtain ⟨m, low, high⟩ := t
  have hd : Denotes m low high c := ⟨hp, hr, h₁, h₂⟩
  cases profile with
  | script => exact ⟨m, _, low, high, rfl, hm, hd, fun _ => rfl, fun _ => rfl, by rintro ⟨⟩⟩
  | localisation =>
    refine ⟨m, Utf8.encode [byteChar low, byteChar high], low, high, ?_, hm, hd, fun rest => ?_,
      by rintro ⟨⟩, fun _ => ⟨_, _, rfl, payloadByte_byteChar low, payloadByte_byteChar high⟩⟩
    · dsimp only
      rw [Utf8.encode_cons, encodeChar_pushChar_marker hm, List.singleton_append]
    · rw [payload_localisation (payloadByte_byteChar low) (payloadByte_byteChar high)]
      dsimp only
      rw [Utf8.encode_cons (pushChar m.toNat), encodeChar_pushChar_marker hm, List.length_append,
        List.length_singleton, Nat.add_comm]

/-! ## Conversion is a map over the pieces -/

/-- The bytes a piece is converted to. -/
def Piece.converted (profile : Profile) : Direction → Piece → List UInt8
  | .encode set => Piece.encoded profile set
  | .decode => Piece.decoded

/-- Converting accepts the piece. -/
def Piece.Convertible (profile : Profile) : Direction → Piece → Prop
  | .encode _ => Piece.Accepted profile
  | .decode => fun _ => True

theorem flatMap_decoded (ps : List Piece) :
    ps.flatMap Piece.decoded = Utf8.encode (ps.map Piece.char) := by
  induction ps with
  | nil => rfl
  | cons p ps ih => rw [List.flatMap_cons, ih]; rfl

/-- What is behind a stray sequence is shorter than the run. -/
theorem length_behind_le {front : List UInt8} {b : UInt8} {rest : List UInt8} {n fuel : Nat}
    (hpos : 0 < n) (h : (front ++ b :: rest).length ≤ fuel + 1) :
    ((b :: rest).drop n).length ≤ fuel := by
  rw [List.length_append] at h
  rw [List.length_drop]
  simp only [List.length_cons] at h ⊢
  omega

/-- Decoding a run writes the character of every chunk. -/
theorem decodeRun_eq {fuel : Nat} {run : List UInt8} (h : run.length ≤ fuel) :
    decodeRun fuel run = ((Utf8.lossy run).map .chunk).flatMap Piece.decoded := by
  induction fuel generalizing run with
  | zero => rw [List.eq_nil_of_length_eq_zero (Nat.le_zero.mp h)]; rfl
  | succ fuel ih =>
    unfold decodeRun
    obtain ⟨cs, rfl | ⟨b, rest, rfl, hu⟩⟩ := Utf8.exists_encode_append run
    · rw [Utf8.fromUtf8_encode, Utf8.lossy_encode, flatMap_decoded, List.map_map, List.map_map]
      have hcs : cs.map ((Piece.char ∘ Piece.chunk) ∘ Chunk.char) = cs := List.map_id cs
      rw [hcs]
      cases cs <;> simp
    · obtain ⟨error, he, hup, hwidth⟩ := Utf8.fromUtf8_error cs hu
      obtain ⟨hpos, hsub⟩ := Utf8.lossy_subpart hu
      have hne : (Utf8.encode cs ++ b :: rest).isEmpty = false := by simp
      have hlen := length_behind_le hpos h
      rw [hne, if_neg Bool.false_ne_true, he]
      simp only [hwidth]
      rw [hup, List.take_left, List.drop_left, List.drop_length_add_append, ih hlen,
        Utf8.lossy_encode_append, hsub]
      simp only [List.map_append, List.flatMap_append, List.map_map, legacyBytes, List.append_assoc,
        flatMap_decoded (cs.map _), flatMap_decoded (List.map _ (List.take _ _))]
      rw [show Piece.char ∘ Piece.chunk ∘ Chunk.char = id from rfl, List.map_id]
      rfl

/-- Encoding a run accepts exactly the runs of acceptable chunks and writes chunk by chunk. -/
theorem encodeRun_eq_ok_iff {set : EscapeSet} {fuel : Nat} {run : List UInt8}
    (base : Nat) {z : List UInt8} (h : run.length ≤ fuel) :
    encodeRun profile set fuel run base = .ok z ↔
      (∀ p ∈ (Utf8.lossy run).map Piece.chunk, p.Accepted profile) ∧
        z = ((Utf8.lossy run).map .chunk).flatMap (Piece.encoded profile set) := by
  have hplain : ∀ cs : List Char, cs.flatMap (charBytes profile set) =
      ((cs.map Chunk.char).map Piece.chunk).flatMap (Piece.encoded profile set) := by
    intro cs
    induction cs with
    | nil => rfl
    | cons c cs ih => rw [List.flatMap_cons, ih]; rfl
  have hstray : ∀ bs : List UInt8,
      ((bs.map Chunk.byte).map Piece.chunk).flatMap (Piece.encoded profile set) = bs := by
    intro bs
    induction bs with
    | nil => rfl
    | cons b bs ih => rw [List.map_cons, List.map_cons, List.flatMap_cons, ih]; rfl
  have haccept : ∀ cs : List Char, (∀ p ∈ (cs.map Chunk.char).map Piece.chunk,
      p.Accepted profile) ↔ ∀ c ∈ cs, Encodable profile c := by
    intro cs
    simp only [List.forall_mem_map]
    exact Iff.rfl
  induction fuel generalizing run base z with
  | zero =>
    rw [List.eq_nil_of_length_eq_zero (Nat.le_zero.mp h)]
    simp [encodeRun, eq_comm]
  | succ fuel ih =>
    unfold encodeRun
    obtain ⟨cs, rfl | ⟨b, rest, rfl, hu⟩⟩ := Utf8.exists_encode_append run
    · rw [Utf8.fromUtf8_encode, Utf8.lossy_encode, haccept, ← hplain]
      have hnil : ∀ base', encodeRun profile set fuel [] base' = .ok [] := by
        intro base'; cases fuel <;> rfl
      by_cases hempty : cs = []
      · subst hempty; simp [eq_comm]
      have hne : (Utf8.encode cs).isEmpty = false := by
        cases cs with
        | nil => exact absurd rfl hempty
        | cons c cs => simp
      rw [hne, if_neg Bool.false_ne_true]
      simp only [Nat.add_zero, List.drop_length, List.take_length, hnil, List.append_nil]
      cases hf : encodeFile cs profile set with
      | error e =>
        simp only [reduceCtorEq, false_iff, not_and]
        intro ha _
        rw [encodeFile_eq_ok_iff.mpr ⟨ha, rfl⟩] at hf
        cases hf
      | ok y =>
        obtain ⟨ha, rfl⟩ := encodeFile_eq_ok_iff.mp hf
        simp only [Except.ok.injEq]
        exact ⟨fun hz => ⟨ha, hz.symm⟩, fun hz => hz.2.symm⟩
    · obtain ⟨error, he, hup, hwidth⟩ := Utf8.fromUtf8_error cs hu
      obtain ⟨hpos, hsub⟩ := Utf8.lossy_subpart hu
      have hne : (Utf8.encode cs ++ b :: rest).isEmpty = false := by simp
      have hlen := length_behind_le hpos h
      rw [hne, if_neg Bool.false_ne_true, he, Utf8.lossy_encode_append]
      simp only [hwidth]
      cases profile with
      | localisation =>
        simp only [reduceCtorEq, if_false, false_iff, not_and]
        intro ha
        have := ha (.chunk (.byte b)) (by rw [Utf8.lossy_byte hu]; simp)
        cases this
      | script =>
        have hbytes : ∀ p ∈ ((((b :: rest).take (Utf8.subpartLen (b :: rest))).map
            Chunk.byte).map Piece.chunk), p.Accepted .script := by
          simp only [List.forall_mem_map]
          exact fun _ _ => rfl
        simp only [if_true]
        rw [hup, List.take_left, Utf8.fromUtf8_encode]
        simp only
        rw [List.drop_length_add_append, List.take_length_add_append, List.drop_left, hsub]
        simp only [List.map_append, List.forall_mem_append, haccept, List.flatMap_append, ← hplain,
          hstray, List.append_assoc, iff_true_intro hbytes, true_and]
        cases hf : encodeFile cs .script set with
        | error e =>
          simp only [reduceCtorEq, false_iff, not_and]
          rintro ⟨ha, -⟩ _
          rw [encodeFile_eq_ok_iff.mpr ⟨ha, rfl⟩] at hf
          cases hf
        | ok y =>
          obtain ⟨ha, rfl⟩ := encodeFile_eq_ok_iff.mp hf
          simp only [iff_true_intro ha, true_and]
          have ih' := fun base' z' => ih base' (z := z') hlen
          cases hr : encodeRun .script set fuel ((b :: rest).drop (Utf8.subpartLen (b :: rest)))
              (base + ((Utf8.encode cs).length + Utf8.subpartLen (b :: rest))) with
          | error e =>
            simp only [reduceCtorEq, false_iff, not_and]
            intro ha' _
            rw [(ih' _ _).mpr ⟨ha', rfl⟩] at hr
            cases hr
          | ok y' =>
            obtain ⟨ha', rfl⟩ := (ih' _ _).mp hr
            simp only [Except.ok.injEq]
            exact ⟨fun hz => ⟨ha', hz.symm⟩, fun hz => hz.2.symm⟩

/-- A buffer is a marker-free run and a rest that is empty or starts at a marker. -/
theorem run_rest (x : List UInt8) :
    ∃ rest, x = (x.takeWhile fun b => !isMarkerByte b) ++ rest ∧
      (∀ b ∈ x.takeWhile (fun b => !isMarkerByte b), isMarkerByte b = false) ∧ Splits rest := by
  refine ⟨x.dropWhile fun b => !isMarkerByte b, (List.takeWhile_append_dropWhile).symm, ?_, ?_⟩
  · intro b hb
    simpa using List.mem_takeWhile_imp hb
  · cases hr : x.dropWhile fun b => !isMarkerByte b with
    | nil => exact Utf8.splits_nil
    | cons m rest =>
      have hm := List.head_dropWhile_not (fun b => !isMarkerByte b) (by rw [hr]; simp)
      simp only [hr, List.head_cons, Bool.not_eq_false'] at hm
      exact splits_marker hm

/-- The loop of `convert` succeeds on the files whose triples are whole and whose pieces are
convertible, and writes them piece by piece. -/
theorem convertFrom_eq_ok_iff {direction : Direction} {fuel : Nat}
    {x : List UInt8} (index : Nat) {y : List UInt8} (h : x.length ≤ fuel) :
    convertFrom profile direction fuel x index = .ok y ↔
      ∃ ps, scan profile x = some ps ∧ (∀ p ∈ ps, p.Convertible profile direction) ∧
        y = ps.flatMap (Piece.converted profile direction) := by
  induction fuel generalizing x index y with
  | zero =>
    rw [List.eq_nil_of_length_eq_zero (Nat.le_zero.mp h)]
    simp [convertFrom, eq_comm]
  | succ fuel ih =>
    cases x with
    | nil => simp [convertFrom, eq_comm]
    | cons b rest =>
      unfold convertFrom
      dsimp only
      by_cases hm : isMarkerByte b = true
      · rw [if_pos hm]
        cases he : escapeAt (b :: rest) index profile with
        | error e =>
          have hscan : scan profile (b :: rest) = none := by
            cases he' : escapeAt (b :: rest) 0 profile with
            | error e' => exact scan_damaged hm he'
            | ok p =>
              obtain ⟨raw, rest', hx, -, ht⟩ := exists_of_escapeAt hm (w := p.1) (c := p.2) he'
              rw [hx, ht.escapeAt] at he
              cases he
          simp [hscan]
        | ok p =>
          obtain ⟨raw, rest', hx, hw, ht⟩ := exists_of_escapeAt hm (w := p.1) (c := p.2) he
          have hlen : rest'.length ≤ fuel := by
            have := congrArg List.length hx
            obtain ⟨_, _, _, _, rfl, -⟩ := ht
            simp only [List.length_append, List.length_cons] at this h
            omega
          simp only [hw, hx, List.take_left, List.drop_left]
          rw [scan_triple ht]
          have ih' := fun z => ih (x := rest') (index + raw.length) (y := z) hlen
          constructor
          · intro hy
            cases hr : convertFrom profile direction fuel rest' (index + raw.length) with
            | error e => rw [hr] at hy; cases hy
            | ok z =>
              rw [hr] at hy
              obtain ⟨ps, hps, hall, rfl⟩ := (ih' z).mp hr
              refine ⟨_, by rw [hps]; rfl, List.forall_mem_cons.mpr ⟨?_, hall⟩, ?_⟩
              · cases direction <;> trivial
              · cases direction
                · exact (Except.ok.inj hy).symm
                · exact (Except.ok.inj hy).symm.trans (by simp [Piece.converted, Piece.decoded,
                    Piece.char])
          · rintro ⟨qs, hqs, hall, rfl⟩
            rw [Option.map_eq_some_iff] at hqs
            obtain ⟨ps, hps, rfl⟩ := hqs
            rw [(ih' _).mpr ⟨ps, hps, (List.forall_mem_cons.mp hall).2, rfl⟩]
            cases direction <;> simp [Piece.converted, Piece.encoded, Piece.decoded, Piece.char]
      · obtain ⟨rest', hx, hrun, hs⟩ := run_rest (b :: rest)
        rw [if_neg hm]
        have hpos : 0 < ((b :: rest).takeWhile fun b => !isMarkerByte b).length := by
          rw [List.takeWhile_cons]
          simp [hm]
        generalize hgen : ((b :: rest).takeWhile fun b => !isMarkerByte b) = run at hx hrun hpos
        have hlen : rest'.length ≤ fuel := by
          have := congrArg List.length hx
          rw [List.length_append] at this
          omega
        have ih' := fun z => ih (x := rest') (index + run.length) (y := z) hlen
        rw [hx, List.drop_left, scan_append (scan_run hrun) hs]
        have hconv : ∀ z, convertRun profile direction run index = .ok z ↔
              (∀ p ∈ (Utf8.lossy run).map Piece.chunk, p.Convertible profile direction) ∧
                z = ((Utf8.lossy run).map .chunk).flatMap (Piece.converted profile direction) := by
          intro z
          unfold convertRun
          cases direction with
          | encode set => exact encodeRun_eq_ok_iff _ le_rfl
          | decode =>
            simp only [Except.ok.injEq, decodeRun_eq le_rfl]
            exact ⟨fun hz => ⟨fun _ _ => trivial, hz.symm⟩, fun hz => hz.2.symm⟩
        generalize convertRun profile direction run index = converted at hconv
        constructor
        · intro hy
          cases hc : converted with
          | error e => rw [hc] at hy; cases hy
          | ok piece =>
            obtain ⟨hall, rfl⟩ := (hconv piece).mp hc
            rw [hc] at hy
            simp only at hy
            cases hr : convertFrom profile direction fuel rest' (index + run.length) with
            | error e => rw [hr] at hy; cases hy
            | ok z =>
              rw [hr] at hy
              obtain ⟨ps, hps, hall', rfl⟩ := (ih' z).mp hr
              refine ⟨_, by rw [hps]; rfl, List.forall_mem_append.mpr ⟨hall, hall'⟩, ?_⟩
              rw [List.flatMap_append]
              exact (Except.ok.inj hy).symm
        · rintro ⟨qs, hqs, hall, rfl⟩
          rw [Option.map_eq_some_iff] at hqs
          obtain ⟨ps, hps, rfl⟩ := hqs
          rw [List.forall_mem_append] at hall
          rw [(hconv _).mpr ⟨hall.1, rfl⟩]
          simp only
          rw [(ih' _).mpr ⟨ps, hps, hall.2, rfl⟩, List.flatMap_append]

/-- Whole-file conversion. A localisation file has to be UTF-8. -/
theorem convert_eq_ok_iff {direction : Direction} {x y : List UInt8} :
    convert x profile direction = .ok y ↔
      (profile = .localisation → ∃ cs, x = Utf8.encode cs) ∧
      ∃ ps, scan profile x = some ps ∧ (∀ p ∈ ps, p.Convertible profile direction) ∧
        y = ps.flatMap (Piece.converted profile direction) := by
  have hfrom : convertFrom profile direction x.length x 0 = .ok y ↔ _ :=
    convertFrom_eq_ok_iff 0 le_rfl
  unfold convert
  cases profile with
  | script => rw [← hfrom]; simp
  | localisation =>
    cases hx : Utf8.fromUtf8 x with
    | error e =>
      simp only [reduceCtorEq, false_iff, not_and, forall_const]
      rintro ⟨cs, rfl⟩
      rw [Utf8.fromUtf8_encode] at hx
      cases hx
    | ok cs =>
      simp only
      rw [← hfrom]
      simp only [forall_const, iff_and_self]
      exact fun _ => ⟨cs, Utf8.fromUtf8_eq_ok_iff.mp hx⟩

end ParadoxCode.Transcode

import ParadoxCode.Transcode.Localisation

/-!
# Script files

A script file keeps Latin-1 and the CP1252 characters as single bytes. Two things can go wrong when
its bytes are read again, and nothing else does:

1. A C1 control and the CP1252 character of the same byte are written alike.
2. Neighbouring single bytes can spell the UTF-8 encoding of one character (`Merges`), and the BOM
is written as its three UTF-8 bytes.

`encodeBuffer_script_idempotent_iff` and `decodeFile_encodeFile_iff` say exactly when whole files
and texts survive.
-/

namespace ParadoxCode.Transcode

open Utf8 (Chunk Unreadable)

/-- Reading the byte of a Latin-1 character gives the character: it is no C1 control that CP1252
reassigns. -/
def ByteStable (c : Char) : Prop := c.toNat < 0x100 → byteToChar (UInt8.ofNat c.toNat) = c.toNat

instance (c : Char) : Decidable (ByteStable c) := by unfold ByteStable; infer_instance

/-! ## Texts -/

/-- The characters `decode_file` reads in place of an encoded character. -/
def rereadChars (c : Char) : List Char :=
  if c.toNat < 0x100 then [byteChar (UInt8.ofNat c.toNat)]
  else if c.toNat = 0xFEFF then [byteChar 0xEF, byteChar 0xBB, byteChar 0xBF]
  else [c]

theorem decodeScriptFrom_byte {b : UInt8} (h : isMarkerByte b = false) (bs : List UInt8) (i : Nat) :
    decodeScriptFrom (b :: bs) i = ⟨byteChar b :: (decodeScriptFrom bs (i + 1)).text,
      (decodeScriptFrom bs (i + 1)).brokenSequences⟩ := by
  match bs with
  | [] => simp [decodeScriptFrom, h, pushChar_byteToChar]
  | [d] => simp [decodeScriptFrom, h, pushChar_byteToChar]
  | d :: e :: es => simp [decodeScriptFrom, h, pushChar_byteToChar]

variable {c : Char}

theorem decodeScriptFrom_triple {m low high : UInt8} (hm : isMarkerByte m = true)
    (hr : reconstruct m.toNat low high = c.toNat) (bs : List UInt8) (i : Nat) :
    decodeScriptFrom (m :: low :: high :: bs) i = ⟨c :: (decodeScriptFrom bs (i + 3)).text,
      (decodeScriptFrom bs (i + 3)).brokenSequences⟩ := by
  rw [decodeScriptFrom, if_pos hm]
  dsimp only
  rw [hr, pushChar_toNat]

/-- Decoding what was written for a character. -/
theorem decodeScriptFrom_charBytes (set : EscapeSet) (he : Encodable .script c)
    (hm : isMarkerCodePoint c.toNat = false) (bs : List UInt8) (i : Nat) : ∃ j,
    decodeScriptFrom (charBytes .script set c ++ bs) i =
      ⟨rereadChars c ++ (decodeScriptFrom bs j).text, (decodeScriptFrom bs j).brokenSequences⟩ := by
  rw [encodable_script] at he
  by_cases h₁ : c.toNat < 0x100
  · have hb : isMarkerByte (UInt8.ofNat c.toNat) = false := by
      rw [← Bool.not_eq_true, isMarkerByte_iff, Utf8.toNat_byte h₁, ← isMarkerCodePoint_iff, hm]
      decide
    refine ⟨i + 1, ?_⟩
    simp only [charBytes, rereadChars, if_pos h₁, List.singleton_append]
    exact decodeScriptFrom_byte hb bs i
  by_cases h₂ : c.toNat = 0xFEFF
  · refine ⟨i + 1 + 1 + 1, ?_⟩
    simp only [charBytes, rereadChars, if_neg h₁, if_pos h₂, List.cons_append, List.nil_append]
    rw [decodeScriptFrom_byte (by decide), decodeScriptFrom_byte (by decide),
      decodeScriptFrom_byte (by decide)]
  cases hb : mappedByte c.toNat with
  | some b =>
    have hbounds := mappedByte_bounds hb
    refine ⟨i + 1, ?_⟩
    simp only [charBytes, rereadChars, if_neg h₁, if_neg h₂, hb, List.singleton_append]
    rw [decodeScriptFrom_byte (isMarkerByte_eq_false hbounds.1), byteChar,
      byteToChar_of_mappedByte hb, Utf8.charOf_toNat]
  | none =>
    rw [hb] at he
    simp only [h₁, h₂, Option.isSome_none, Bool.false_eq_true, false_or] at he
    obtain ⟨hmk, hr, -⟩ := escapeTriple_spec set he.1 he.2
    refine ⟨i + 3, ?_⟩
    simp only [charBytes, rereadChars, if_neg h₁, if_neg h₂, hb, List.cons_append, List.nil_append]
    exact decodeScriptFrom_triple hmk hr bs i

theorem decodeScriptFrom_flatMap {t : List Char} (set : EscapeSet)
    (he : ∀ c ∈ t, Encodable .script c) (hm : ∀ c ∈ t, isMarkerCodePoint c.toNat = false)
    (i : Nat) :
    decodeScriptFrom (t.flatMap (charBytes .script set)) i = ⟨t.flatMap rereadChars, []⟩ := by
  induction t generalizing i with
  | nil => rfl
  | cons c t ih =>
    rw [List.forall_mem_cons] at he hm
    obtain ⟨j, hj⟩ := decodeScriptFrom_charBytes set he.1 hm.1
      (t.flatMap (charBytes .script set)) i
    rw [List.flatMap_cons, hj, ih he.2 hm.2, List.flatMap_cons]

/-- Replacing every element by a nonempty list changes nothing only where it replaces each element
by itself. -/
theorem flatMap_eq_self_iff {α : Type*} {f : α → List α} {l : List α} (h : ∀ a ∈ l, f a ≠ []) :
    l.flatMap f = l ↔ ∀ a ∈ l, f a = [a] := by
  have hlen : ∀ l : List α, (∀ a ∈ l, f a ≠ []) → l.length ≤ (l.flatMap f).length := by
    intro l hl
    induction l with
    | nil => exact le_rfl
    | cons a l ih =>
      rw [List.forall_mem_cons] at hl
      have := List.length_pos_of_ne_nil hl.1
      rw [List.flatMap_cons, List.length_append, List.length_cons]
      have := ih hl.2
      omega
  constructor
  · intro hl
    induction l with
    | nil => simp
    | cons a l ih =>
      rw [List.forall_mem_cons] at h ⊢
      rw [List.flatMap_cons] at hl
      obtain ⟨b, tl, hb⟩ := List.exists_cons_of_ne_nil h.1
      have hle := hlen l h.2
      have hcount := congrArg List.length hl
      rw [hb] at hl hcount ⊢
      simp only [List.cons_append, List.length_cons, List.length_append] at hcount
      have htl : tl = [] := List.eq_nil_of_length_eq_zero (by omega)
      subst htl
      rw [List.cons_append, List.nil_append, List.cons.injEq] at hl
      exact ⟨by rw [hl.1], ih h.2 hl.2⟩
  · intro hl
    induction l with
    | nil => rfl
    | cons a l ih =>
      rw [List.forall_mem_cons] at h hl
      rw [List.flatMap_cons, hl.1, ih h.2 hl.2, List.singleton_append]

theorem rereadChars_ne_nil (c : Char) : rereadChars c ≠ [] := by
  unfold rereadChars
  split_ifs <;> simp

theorem rereadChars_eq_singleton_iff : rereadChars c = [c] ↔ c.toNat ≠ 0xFEFF ∧ ByteStable c := by
  unfold rereadChars ByteStable
  split_ifs with h₁ h₂
  · constructor
    · intro h
      have hc := congrArg Char.toNat (List.singleton_injective h)
      rw [toNat_byteChar] at hc
      exact ⟨by omega, fun _ => hc⟩
    · rintro ⟨-, h⟩
      rw [byteChar, h h₁, Utf8.charOf_toNat]
  · simp [h₂]
  · simp [h₁, h₂]

/-- An encoded script text without markers decodes to itself exactly when it holds no BOM and no C1
control that CP1252 reassigns. -/
theorem decodeFile_encodeFile_iff {t : List Char} (set : EscapeSet) {b : List UInt8}
    (hm : ∀ c ∈ t, isMarkerCodePoint c.toNat = false) (h : encodeFile t .script set = .ok b) :
    (∃ d, decodeFile b .script = .ok d ∧ d.text = t ∧ d.brokenSequences = []) ↔
      ∀ c ∈ t, c.toNat ≠ 0xFEFF ∧ ByteStable c := by
  obtain ⟨he, rfl⟩ := encodeFile_eq_ok_iff.mp h
  have hd := decodeScriptFrom_flatMap set he hm 0
  have hself := flatMap_eq_self_iff (f := rereadChars) (l := t) fun c _ => rereadChars_ne_nil c
  simp only [rereadChars_eq_singleton_iff] at hself
  rw [← hself]
  unfold decodeFile
  dsimp only
  rw [hd]
  constructor
  · rintro ⟨d, hd, ht, -⟩
    cases hd
    exact ht
  · intro ht
    exact ⟨_, rfl, ht, rfl⟩

/-- Latin-1, a mapped character and a triple. -/
theorem decodeFile_encodeFile_iff_mixed :
    (∃ d, decodeFile [0xE9, 0x80, 0x10, 0x2D, 0x4E] .script = .ok d ∧
      d.text = [Char.ofNat 0xE9, Char.ofNat 0x20AC, Char.ofNat 0x4E2D] ∧ d.brokenSequences = []) ↔
    ∀ c ∈ [Char.ofNat 0xE9, Char.ofNat 0x20AC, Char.ofNat 0x4E2D],
      c.toNat ≠ 0xFEFF ∧ ByteStable c :=
  decodeFile_encodeFile_iff .dllFull (forall_mem_of_all (by decide +kernel)) (by decide +kernel)

/-- The BOM and the control `U+0080` are written, and read as other characters. -/
theorem decodeFile_encodeFile_bom :
    (encodeFile [Char.ofNat 0xFEFF] .script .paratranz = .ok [0xEF, 0xBB, 0xBF] ∧
      ¬ ∃ d, decodeFile [0xEF, 0xBB, 0xBF] .script = .ok d ∧ d.text = [Char.ofNat 0xFEFF] ∧
        d.brokenSequences = []) ∧
    (encodeFile [Char.ofNat 0x80] .script .paratranz = .ok [0x80] ∧
      ¬ ∃ d, decodeFile [0x80] .script = .ok d ∧ d.text = [Char.ofNat 0x80] ∧
        d.brokenSequences = []) := by
  refine ⟨⟨by decide +kernel, ?_⟩, by decide +kernel, ?_⟩
  · rintro ⟨d, hd, ht, -⟩
    cases hd
    revert ht
    decide +kernel
  · rintro ⟨d, hd, ht, -⟩
    cases hd
    revert ht
    decide +kernel

/-! ## Files -/

namespace Piece

/-- The byte of a piece that a script writes as a single byte. -/
def singleByte : Piece → Option UInt8
  | triple _ _ => none
  | chunk (.char c) => payloadByte c
  | chunk (.byte b) => some b

/-- A piece as it stands in the encoded script. -/
def settled (set : EscapeSet) : Piece → Piece
  | chunk (.char c) =>
    match payloadByte c with
    | some b => if c.toNat < 0x80 then chunk (.char c) else chunk (.byte b)
    | none =>
      if c.toNat = 0xFEFF then chunk (.char c) else triple (charBytes .script set c) c
  | p => p

/-- Reading a piece written as one byte gives its character. -/
def Stable : Piece → Prop
  | chunk (.char c) => ByteStable c
  | _ => True

end Piece

/-- Neighbouring pieces that are written as single bytes spell one character together. -/
def Merges (ps : List Piece) : Prop :=
  ∃ before window after c, ps = before ++ window ++ after ∧ 0x80 ≤ c.toNat ∧
    window.map Piece.singleByte = (String.utf8EncodeChar c).map some

/-- The pieces of a script survive being encoded. -/
def Settles (x : List UInt8) : Prop :=
  ∀ ps, scan .script x = some ps → ¬ Merges ps ∧ ∀ p ∈ ps, p.Stable

theorem charBytes_script_ascii (h : c.toNat < 0x80) (set : EscapeSet) :
    charBytes .script set c = String.utf8EncodeChar c := by
  rw [Utf8.encodeChar_ascii h]
  simp only [charBytes, if_pos (show c.toNat < 0x100 by omega)]

theorem charBytes_script_bom (h : c.toNat = 0xFEFF) (set : EscapeSet) :
    charBytes .script set c = String.utf8EncodeChar c := by
  have hc : c = Char.ofNat 0xFEFF := by rw [← Utf8.charOf_toNat c, h]; rfl
  subst hc
  cases set <;> decide

theorem charBytes_script_of_payloadByte {b : UInt8} (h : payloadByte c = some b)
    (set : EscapeSet) : charBytes .script set c = [b] := by
  unfold payloadByte at h
  simp only [charBytes]
  split_ifs at h with h₁
  · rw [if_pos h₁, Option.some.inj h]
  · have h₂ : c.toNat ≠ 0xFEFF := by
      intro h₂
      have := (mappedByte_bounds h).2.2.2
      omega
    rw [if_neg h₁, if_neg h₂, h]

theorem le_of_payloadByte {b : UInt8} (h : payloadByte c = some b) :
    0x80 ≤ c.toNat ↔ 0x80 ≤ b.toNat := by
  unfold payloadByte at h
  split_ifs at h with h₁
  · rw [← Option.some.inj h, Utf8.toNat_byte h₁]
  · have := mappedByte_bounds h
    omega

theorem toNat_of_payloadByte {b : UInt8} (h : payloadByte c = some b) :
    byteChar b = c ↔ ByteStable c := by
  unfold payloadByte at h
  unfold ByteStable
  split_ifs at h with h₁
  · rw [← Option.some.inj h]
    refine ⟨fun hc _ => by rw [← toNat_byteChar, hc], fun hc => ?_⟩
    rw [byteChar, hc h₁, Utf8.charOf_toNat]
  · rw [byteChar, byteToChar_of_mappedByte h, Utf8.charOf_toNat]
    simp [h₁]

/-- `p` is written as the piece `q`, which reads back as itself and starts at a boundary. -/
structure Kept (set : EscapeSet) (p q : Piece) : Prop where
  wellFormed : q.WellFormed .script
  ne_byte : ∀ b, q ≠ .chunk (.byte b)
  bytes_eq : q.bytes = p.encoded .script set
  encoded_eq : q.encoded .script set = p.encoded .script set
  accepted : q.Accepted .script
  char_eq : q.char = p.char
  stable : p.Stable
  singleByte_lt : ∀ b ∈ p.singleByte, b.toNat < 0x80
  head : ∃ b tl, p.encoded .script set = b :: tl ∧ Utf8.isContinuation b = false

variable {set : EscapeSet} {p : Piece}

theorem kept_triple {raw : List UInt8}
    (ht : IsTriple .script raw c) (he : p.encoded .script set = raw) (hc : p.char = c)
    (hs : p.Stable) (hb : p.singleByte = none) : Kept set p (.triple raw c) where
  wellFormed := ht
  ne_byte := by rintro b ⟨⟩
  bytes_eq := he.symm
  encoded_eq := he.symm
  accepted := trivial
  char_eq := hc.symm
  stable := hs
  singleByte_lt := by rw [hb]; rintro b ⟨⟩
  head := by
    obtain ⟨m, body, low, high, rfl, hm, -⟩ := ht
    refine ⟨m, body, he, ?_⟩
    rw [isMarkerByte_iff] at hm
    rw [← Bool.not_eq_true, Utf8.isContinuation_iff]
    omega

theorem kept_char (hm : isMarkerCodePoint c.toNat = false)
    (ha : Encodable .script c) (he : charBytes .script set c = String.utf8EncodeChar c)
    (hs : ByteStable c) (hb : ∀ b ∈ payloadByte c, b.toNat < 0x80) :
    Kept set (.chunk (.char c)) (.chunk (.char c)) where
  wellFormed := hm
  ne_byte := by rintro b ⟨⟩
  bytes_eq := he.symm
  encoded_eq := rfl
  accepted := ha
  char_eq := rfl
  stable := hs
  singleByte_lt := hb
  head := by
    obtain ⟨b, tl, e, hnc, -⟩ := Utf8.encodeChar_cons c
    exact ⟨b, tl, he.trans e, hnc⟩

/-- An accepted piece of a script is written as a single byte past ASCII, or it is kept. -/
theorem settled_cases (set : EscapeSet) (ha : p.Accepted .script) (hw : p.WellFormed .script) :
    (∃ b, 0x80 ≤ b.toNat ∧ p.singleByte = some b ∧ p.settled set = .chunk (.byte b) ∧
      p.encoded .script set = [b] ∧ (byteChar b = p.char ↔ p.Stable)) ∨
    Kept set p (p.settled set) := by
  cases p with
  | triple raw c => exact Or.inr (kept_triple hw rfl rfl trivial rfl)
  | chunk k =>
    cases k with
    | byte b => exact Or.inl ⟨b, hw, rfl, rfl, rfl, iff_of_true rfl trivial⟩
    | char c =>
      cases hb : payloadByte c with
      | some b =>
        by_cases hc : c.toNat < 0x80
        · right
          have hset : (Piece.chunk (.char c)).settled set = .chunk (.char c) := by
            simp only [Piece.settled, hb, if_pos hc]
          have hlt : ¬ 0x80 ≤ b.toNat := by rw [← le_of_payloadByte hb]; omega
          rw [hset]
          refine kept_char hw ha (charBytes_script_ascii hc set) ?_ ?_
          · intro h
            rw [← toNat_byteChar, byteChar_ascii] <;> rw [Utf8.toNat_byte h]
            exact hc
          · rw [hb]
            rintro _ ⟨⟩
            omega
        · left
          refine ⟨b, (le_of_payloadByte hb).mp (by omega), hb, ?_,
            charBytes_script_of_payloadByte hb set, toNat_of_payloadByte hb⟩
          simp only [Piece.settled, hb, if_neg hc]
      | none =>
        right
        have hge : ¬ c.toNat < 0x100 := by
          intro h
          rw [payloadByte, if_pos h] at hb
          cases hb
        have hs : ByteStable c := fun h => absurd h hge
        by_cases hbom : c.toNat = 0xFEFF
        · have hset : (Piece.chunk (.char c)).settled set = .chunk (.char c) := by
            simp only [Piece.settled, hb, if_pos hbom]
          rw [hset]
          refine kept_char hw ha (charBytes_script_bom hbom set) hs ?_
          rw [hb]
          rintro b ⟨⟩
        · have hset : (Piece.chunk (.char c)).settled set =
              .triple (charBytes .script set c) c := by
            simp only [Piece.settled, hb, if_neg hbom]
          rw [hset]
          have hmap : mappedByte c.toNat = none := by rwa [payloadByte, if_neg hge] at hb
          have ha' := encodable_script.mp ha
          rw [hmap] at ha'
          simp only [hge, hbom, Option.isSome_none, Bool.false_eq_true, false_or] at ha'
          have ht := isTriple_of_escapeTriple .script set ha'.1 ha'.2
          refine kept_triple ?_ rfl rfl hs hb
          simp only [charBytes, if_neg hge, if_neg hbom, hmap]
          exact ht

variable {ps : List Piece}

/-- Continuation bytes at the front of an encoded script are pieces written as single bytes. -/
theorem exists_window (ha : ∀ p ∈ ps, p.Accepted .script)
    (hw : ∀ p ∈ ps, p.WellFormed .script) {tl rest : List UInt8}
    (htl : ∀ b ∈ tl, Utf8.isContinuation b = true)
    (h : ps.flatMap (Piece.encoded .script set) = tl ++ rest) :
    ∃ window after, ps = window ++ after ∧ window.map Piece.singleByte = tl.map some := by
  induction tl generalizing ps with
  | nil => exact ⟨[], ps, rfl, rfl⟩
  | cons b tl ih =>
    cases ps with
    | nil => cases h
    | cons p ps =>
      rw [List.forall_mem_cons] at ha hw htl
      rw [List.flatMap_cons] at h
      rcases settled_cases set ha.1 hw.1 with ⟨b', -, hb', -, he, -⟩ | hk
      · rw [he, List.cons_append, List.nil_append, List.cons_append, List.cons.injEq] at h
        obtain ⟨window, after, rfl, hwin⟩ := ih ha.2 hw.2 htl.2 h.2
        exact ⟨p :: window, after, rfl, by rw [List.map_cons, hwin, hb', h.1, List.map_cons]⟩
      · obtain ⟨b', tl', he, hnc⟩ := hk.head
        rw [he, List.cons_append, List.cons_append, List.cons.injEq] at h
        rw [h.1, htl.1] at hnc
        cases hnc

theorem Merges.cons (h : Merges ps) (p : Piece) : Merges (p :: ps) := by
  obtain ⟨before, window, after, c, rfl, hc, hwin⟩ := h
  exact ⟨p :: before, window, after, c, rfl, hc, hwin⟩

/-- Where nothing merges, the encoded script scans to the settled pieces. -/
theorem scan_settled (set : EscapeSet) (ha : ∀ p ∈ ps, p.Accepted .script)
    (hw : ∀ p ∈ ps, p.WellFormed .script) (hn : ¬ Merges ps) :
    scan .script (ps.flatMap (Piece.encoded .script set)) = some (ps.map (Piece.settled set)) := by
  induction ps with
  | nil => rfl
  | cons p ps ih =>
    have hps := hn
    rw [List.forall_mem_cons] at ha hw
    have ih := ih ha.2 hw.2 fun h => hn (h.cons p)
    rw [List.flatMap_cons, List.map_cons]
    rcases settled_cases set ha.1 hw.1 with ⟨b, hb, hsb, hset, he, -⟩ | hk
    · have hu : Unreadable (b :: ps.flatMap (Piece.encoded .script set)) := by
        intro c rest hd
        have hbs := Utf8.eq_of_decodeFirst_char hd
        obtain ⟨b', tl, e, -, htl, hascii, -⟩ := Utf8.encodeChar_cons c
        rw [e, List.cons_append, List.cons.injEq] at hbs
        obtain ⟨window, after, rfl, hwin⟩ := exists_window ha.2 hw.2 htl hbs.2
        refine hn ⟨[], p :: window, after, c, rfl, ?_, ?_⟩
        · by_contra hc
          have hb' := (hascii (by omega)).1
          rw [hbs.1, hb', Utf8.toNat_byte (by omega)] at hb
          exact hc hb
        · rw [List.map_cons, hwin, hsb, e, hbs.1, List.map_cons]
      rw [he, List.singleton_append, scan_byte hu, ih, hset]
      rfl
    · rw [← hk.bytes_eq, scan_piece hk.wellFormed hk.ne_byte, ih]
      rfl

theorem bytes_settled (ha : p.Accepted .script)
    (hw : p.WellFormed .script) : (p.settled set).bytes = p.encoded .script set := by
  rcases settled_cases set ha hw with ⟨b, -, -, hset, he, -⟩ | hk
  · rw [hset, he]; rfl
  · exact hk.bytes_eq

theorem encoded_settled (ha : p.Accepted .script) (hw : p.WellFormed .script) :
    (p.settled set).encoded .script set = p.encoded .script set := by
  rcases settled_cases set ha hw with ⟨b, -, -, hset, he, -⟩ | hk
  · rw [hset, he]; rfl
  · exact hk.encoded_eq

theorem accepted_settled (ha : p.Accepted .script)
    (hw : p.WellFormed .script) : (p.settled set).Accepted .script := by
  rcases settled_cases set ha hw with ⟨b, -, -, hset, -⟩ | hk
  · rw [hset]; rfl
  · exact hk.accepted

theorem char_settled_iff (ha : p.Accepted .script)
    (hw : p.WellFormed .script) : (p.settled set).char = p.char ↔ p.Stable := by
  rcases settled_cases set ha hw with ⟨b, -, -, hset, -, hs⟩ | hk
  · rw [hset]; exact hs
  · exact iff_of_true hk.char_eq hk.stable

/-- Encoding makes no piece longer. -/
theorem length_encoded_le {q : Piece} (set : EscapeSet) (ha : q.Accepted .script) :
    (q.encoded .script set).length ≤ q.bytes.length := by
  cases q with
  | triple raw c => exact le_rfl
  | chunk k =>
    cases k with
    | byte b => exact le_rfl
    | char c =>
      have hpos := Utf8.length_encodeChar_pos c
      have ha' := encodable_script.mp ha
      simp only [Piece.encoded, Piece.bytes, Chunk.bytes]
      by_cases h₁ : c.toNat < 0x100
      · simp only [charBytes, if_pos h₁, List.length_singleton]
        exact hpos
      by_cases h₂ : c.toNat = 0xFEFF
      · rw [charBytes_script_bom h₂]
      cases hb : mappedByte c.toNat with
      | some b =>
        simp only [charBytes, if_neg h₁, if_neg h₂, hb, List.length_singleton]
        exact hpos
      | none =>
        rw [hb] at ha'
        simp only [h₁, h₂, Option.isSome_none, Bool.false_eq_true, false_or] at ha'
        simp only [charBytes, if_neg h₁, if_neg h₂, hb, List.length_cons, List.length_nil]
        rcases Utf8.encodeChar_shape c with ⟨h, e⟩ | ⟨h, h', e⟩ | ⟨h, h', e⟩ | ⟨h, h', e⟩
        · omega
        · omega
        · rw [e]; simp
        · omega

/-- Two ways to spell a list agree element by element where one is nowhere longer. -/
theorem eq_of_flatMap_eq {α β : Type*} {f g : α → List β} {l : List α}
    (hle : ∀ a ∈ l, (f a).length ≤ (g a).length) (h : l.flatMap f = l.flatMap g) :
    ∀ a ∈ l, f a = g a := by
  have htotal : ∀ l : List α, (∀ a ∈ l, (f a).length ≤ (g a).length) →
      (l.flatMap f).length ≤ (l.flatMap g).length := by
    intro l hl
    induction l with
    | nil => exact le_rfl
    | cons a l ih =>
      rw [List.forall_mem_cons] at hl
      rw [List.flatMap_cons, List.flatMap_cons, List.length_append, List.length_append]
      exact Nat.add_le_add hl.1 (ih hl.2)
  induction l with
  | nil => simp
  | cons a l ih =>
    rw [List.forall_mem_cons] at hle ⊢
    rw [List.flatMap_cons, List.flatMap_cons] at h
    have hlen := congrArg List.length h
    rw [List.length_append, List.length_append] at hlen
    have hrest := htotal l hle.2
    have hhead := hle.1
    obtain ⟨h₁, h₂⟩ := List.append_inj h (by omega)
    exact ⟨h₁, ih hle.2 h₂⟩

theorem payloadByte_char {b : UInt8} (h : p.singleByte = some b) : payloadByte p.char = some b := by
  cases p with
  | triple raw c => cases h
  | chunk k =>
    cases k with
    | char c => exact h
    | byte b' =>
      cases h
      exact payloadByte_byteChar b

/-- An encoded script that encodes to itself and has the characters of its source scans to the
settled pieces. -/
theorem eq_settled {qs : List Piece} (ha : ∀ p ∈ ps, p.Accepted .script)
    (hw : ∀ p ∈ ps, p.WellFormed .script)
    (hscan : scan .script (ps.flatMap (Piece.encoded .script set)) = some qs)
    (henc : ∀ q ∈ qs, q.encoded .script set = q.bytes)
    (hchar : qs.map Piece.char = ps.map Piece.char) : qs = ps.map (Piece.settled set) := by
  induction ps generalizing qs with
  | nil => cases hscan; rfl
  | cons p ps ih =>
    rw [List.forall_mem_cons] at ha hw
    rw [List.flatMap_cons] at hscan
    rcases settled_cases set ha.1 hw.1 with ⟨b, hb, hsb, hset, he, -⟩ | hk
    · rw [he, List.singleton_append] at hscan
      by_cases hu : Unreadable (b :: ps.flatMap (Piece.encoded .script set))
      · rw [scan_byte hu, Option.map_eq_some_iff] at hscan
        obtain ⟨qs, hq, rfl⟩ := hscan
        rw [List.forall_mem_cons] at henc
        rw [ih ha.2 hw.2 hq henc.2 (List.cons.inj hchar).2, List.map_cons, hset]
      · -- the character read at `b` is the one `b` stands for, which is written as `b` alone
        simp only [Unreadable, not_forall, not_not] at hu
        obtain ⟨d, rest, hd⟩ := hu
        have hbs := Utf8.eq_of_decodeFirst_char hd
        obtain ⟨b', tl, e, -, -, hascii, hlong⟩ := Utf8.encodeChar_cons d
        have hbb : b = b' := by
          rw [e, List.cons_append, List.cons.injEq] at hbs
          exact hbs.1
        have hd80 : 0x80 ≤ d.toNat := by
          by_contra hlt
          have hb' := (hascii (by omega)).1
          rw [hbb, hb', Utf8.toNat_byte (by omega)] at hb
          exact hlt hb
        have hm : isMarkerCodePoint d.toNat = false := by
          rw [← Bool.not_eq_true, isMarkerCodePoint_iff]; omega
        rw [hbs, scan_char hm, Option.map_eq_some_iff] at hscan
        obtain ⟨qs, hq, rfl⟩ := hscan
        have hdp : d = p.char := (List.cons.inj hchar).1
        have hlen := congrArg List.length ((List.forall_mem_cons.mp henc).1)
        have hpay : payloadByte d = some b := by
          rw [hdp]
          exact payloadByte_char hsb
        simp only [Piece.encoded, Piece.bytes, Chunk.bytes, charBytes_script_of_payloadByte hpay, e,
          List.length_cons, List.length_nil] at hlen
        exact absurd (List.eq_nil_of_length_eq_zero (by omega)) (hlong hd80).2
    · rw [← hk.bytes_eq, scan_piece hk.wellFormed hk.ne_byte, Option.map_eq_some_iff] at hscan
      obtain ⟨qs, hq, rfl⟩ := hscan
      rw [List.forall_mem_cons] at henc
      rw [ih ha.2 hw.2 hq henc.2 (List.cons.inj hchar).2, List.map_cons]

theorem flatMap_encoded_settled
    (ha : ∀ p ∈ ps, p.Accepted .script) (hw : ∀ p ∈ ps, p.WellFormed .script) :
    (ps.map (Piece.settled set)).flatMap (Piece.encoded .script set) =
      ps.flatMap (Piece.encoded .script set) := by
  rw [List.flatMap_map]
  refine List.flatMap_congr fun p hp => ?_
  exact encoded_settled (ha p hp) (hw p hp)

theorem flatMap_bytes_settled
    (ha : ∀ p ∈ ps, p.Accepted .script) (hw : ∀ p ∈ ps, p.WellFormed .script) :
    (ps.map (Piece.settled set)).flatMap Piece.bytes = ps.flatMap (Piece.encoded .script set) := by
  rw [List.flatMap_map]
  refine List.flatMap_congr fun p hp => ?_
  exact bytes_settled (ha p hp) (hw p hp)

theorem flatMap_encoded_of_singleByte {window : List Piece} {bs : List UInt8}
    (h : window.map Piece.singleByte = bs.map some) :
    window.flatMap (Piece.encoded .script set) = bs := by
  induction window generalizing bs with
  | nil =>
    rw [List.map_nil, eq_comm, List.map_eq_nil_iff] at h
    rw [h]
    rfl
  | cons p window ih =>
    cases bs with
    | nil => cases h
    | cons b bs =>
      obtain ⟨hb, hrest⟩ := List.cons.inj h
      have he : p.encoded .script set = [b] := by
        cases p with
        | triple raw c => cases hb
        | chunk k =>
          cases k with
          | char c => exact charBytes_script_of_payloadByte hb set
          | byte b' => cases hb; rfl
      rw [List.flatMap_cons, he, ih hrest, List.singleton_append]

/-- An encoded script that scans to its settled pieces merges nothing: at the first byte of a merged
character the scan reads that character. -/
theorem not_merges_of_scan (ha : ∀ p ∈ ps, p.Accepted .script) (hw : ∀ p ∈ ps, p.WellFormed .script)
    (hscan : scan .script (ps.flatMap (Piece.encoded .script set)) =
      some (ps.map (Piece.settled set))) : ¬ Merges ps := by
  rintro ⟨before, window, after, c, rfl, hc, hwin⟩
  simp only [List.forall_mem_append] at ha hw
  rw [List.append_assoc, List.map_append] at hscan
  obtain ⟨rest, hy, hrest⟩ := scan_of_append hscan
  rw [flatMap_bytes_settled ha.1.1 hw.1.1, List.flatMap_append, List.flatMap_append,
    flatMap_encoded_of_singleByte hwin] at hy
  have hm : isMarkerCodePoint c.toNat = false := by
    rw [← Bool.not_eq_true, isMarkerCodePoint_iff]; omega
  rw [← List.append_cancel_left hy, scan_char hm, Option.map_eq_some_iff] at hrest
  obtain ⟨qs, -, hqs⟩ := hrest
  obtain ⟨b, tl, e, -, -, -, hlong⟩ := Utf8.encodeChar_cons c
  rw [e] at hwin
  cases window with
  | nil => cases hwin
  | cons p window =>
    rw [List.forall_mem_cons] at ha hw
    have hsb := (List.cons.inj hwin).1
    have hset := (List.cons.inj hqs).1
    rcases settled_cases set ha.1.2.1 hw.1.2.1 with ⟨b', -, -, hset', -⟩ | hk
    · rw [hset'] at hset
      cases hset
    · have := hk.singleByte_lt b hsb
      have := (hlong hc).1
      omega

/-- Encoding a script is idempotent and keeps what it decodes to exactly when its pieces settle. -/
theorem encodeBuffer_script_idempotent_iff {x y : List UInt8} {set : EscapeSet}
    (h : encodeBuffer x .script set = .ok y) :
    (encodeBuffer y .script set = .ok y ∧ decodeBuffer y .script = decodeBuffer x .script) ↔
      Settles x := by
  obtain ⟨-, ps, hps, ha, rfl⟩ := encodeBuffer_eq_ok_iff.mp h
  have hw := (scan_spec hps).2
  have hx : decodeBuffer x .script = .ok (Utf8.encode (ps.map Piece.char)) :=
    decodeBuffer_eq_ok_iff.mpr ⟨by rintro ⟨⟩, ps, hps, rfl⟩
  have hsettles : Settles x ↔ ¬ Merges ps ∧ ∀ p ∈ ps, p.Stable := by
    unfold Settles
    rw [hps]
    simp
  have hstable : (ps.map (Piece.settled set)).map Piece.char = ps.map Piece.char ↔
      ∀ p ∈ ps, p.Stable := by
    rw [List.map_map, List.map_inj_left]
    exact forall₂_congr fun p hp => char_settled_iff (ha p hp) (hw p hp)
  rw [hsettles, hx, encodeBuffer_eq_ok_iff, decodeBuffer_eq_ok_iff]
  constructor
  · rintro ⟨⟨-, qs, hqs, haq, hy⟩, -, qs', hqs', hchars⟩
    obtain rfl : qs = qs' := Option.some.inj (hqs.symm.trans hqs')
    have hbytes := (scan_spec hqs).1
    have henc := eq_of_flatMap_eq (fun q hq => length_encoded_le set (haq q hq))
      (hy.symm.trans hbytes)
    have hset := eq_settled ha hw hqs henc (Utf8.encode_injective hchars).symm
    rw [hset] at hqs hchars
    exact ⟨not_merges_of_scan ha hw hqs, hstable.mp (Utf8.encode_injective hchars).symm⟩
  · rintro ⟨hn, hs⟩
    have hscan := scan_settled set ha hw hn
    refine ⟨⟨by rintro ⟨⟩, _, hscan, ?_, (flatMap_encoded_settled ha hw).symm⟩, by rintro ⟨⟩, _,
      hscan, by rw [hstable.mpr hs]⟩
    rw [List.forall_mem_map]
    exact fun p hp => accepted_settled (ha p hp) (hw p hp)

/-- A mapped character next to a legacy byte and a triple. -/
theorem encodeBuffer_script_idempotent_iff_mixed :
    (encodeBuffer [0x80, 0xE9, 0x41, 0x10, 0x2D, 0x4E] .script .paratranz =
        .ok [0x80, 0xE9, 0x41, 0x10, 0x2D, 0x4E] ∧
      decodeBuffer [0x80, 0xE9, 0x41, 0x10, 0x2D, 0x4E] .script =
        decodeBuffer [0xE2, 0x82, 0xAC, 0xE9, 0x41, 0xE4, 0xB8, 0xAD] .script) ↔
    Settles [0xE2, 0x82, 0xAC, 0xE9, 0x41, 0xE4, 0xB8, 0xAD] :=
  encodeBuffer_script_idempotent_iff (by decide +kernel)

/-- `Ã©` is written as the two bytes of `é`: encoding again gives one byte. -/
theorem encodeBuffer_script_merges :
    encodeBuffer [0xC3, 0x83, 0xC2, 0xA9] .script .paratranz = .ok [0xC3, 0xA9] ∧
      ¬ (encodeBuffer [0xC3, 0xA9] .script .paratranz = .ok [0xC3, 0xA9] ∧
        decodeBuffer [0xC3, 0xA9] .script = decodeBuffer [0xC3, 0x83, 0xC2, 0xA9] .script) := by
  decide +kernel

end ParadoxCode.Transcode

import ParadoxCode.Transcode.TextCodec

/-!
# What whole-file encoding reports

`encode_buffer` stops at the first readable run that it cannot write, so its error lists what is
refused in that run: everything that is refused, where nothing is behind the first run that fails.
-/

namespace ParadoxCode.Transcode

open Utf8 (Chunk Unreadable Splits)

/-! ## Segments -/

/-- A part of a file: a whole triple, a marker that starts none, a readable code point or a legacy
byte. -/
inductive Segment where
  | triple
  | damaged
  | readable (c : Char)
  | legacy
  deriving DecidableEq

/-- A segment with its byte offset in the file. -/
abbrev Located := Nat × Segment

def segmentsFrom (profile : Profile) : Nat → List UInt8 → Nat → List Located
  | 0, _, _ => []
  | _ + 1, [], _ => []
  | fuel + 1, b :: rest, index =>
    if isMarkerByte b then
      match escapeAt (b :: rest) 0 profile with
      | .ok (width, _) =>
        (index, .triple) :: segmentsFrom profile fuel ((b :: rest).drop width) (index + width)
      | .error _ => (index, .damaged) :: segmentsFrom profile fuel rest (index + 1)
    else
      match Utf8.decodeFirst (b :: rest) with
      | .char c rest' => (index, .readable c) :: segmentsFrom profile fuel rest'
          (index + c.utf8Size)
      | _ => (index, .legacy) :: segmentsFrom profile fuel rest (index + 1)

example (profile : Profile) : segmentsFrom profile 1 [] 0 = [] := by rw [segmentsFrom]

/-- The segments of a file that starts at offset `index`. -/
def segments (profile : Profile) (x : List UInt8) (index : Nat) : List Located :=
  segmentsFrom profile x.length x index

/-- What encoding refuses among some segments. -/
def refused (profile : Profile) (segs : List Located) : List UnencodableCodePoint :=
  segs.filterMap fun
    | (index, .readable c) => refusal profile (index, c)
    | _ => none

/-- Every refused readable code point of a file, in the order of the file. -/
def refusedIn (profile : Profile) (x : List UInt8) : List UnencodableCodePoint :=
  refused profile (segments profile x 0)

/-- Encoding stops at the segment. -/
def isFaulty (profile : Profile) : Located → Bool
  | (_, .damaged) => true
  | (index, .readable c) => (refusal profile (index, c)).isSome
  | _ => false

def isReadable : Located → Bool
  | (_, .readable _) => true
  | _ => false

/-- What is refused behind the run in which the first fault of a file stands. -/
def unreported (profile : Profile) (segs : List Located) : List UnencodableCodePoint :=
  match segs.dropWhile fun seg => !isFaulty profile seg with
  | [] => []
  | (_, .damaged) :: _ => []
  | rest => refused profile (rest.dropWhile isReadable)

/-- Where the file is read at all and its first fault is a refused code point, nothing is refused
behind the run of that code point. -/
def AllReported (profile : Profile) (x : List UInt8) : Prop :=
  (profile = .localisation → ∃ text, Utf8.fromUtf8 x = .ok text) →
    unreported profile (segments profile x 0) = []

section

variable {profile : Profile}

theorem segmentsFrom_eq {n m : Nat} {x : List UInt8} (hn : x.length ≤ n) (hm : x.length ≤ m)
    (index : Nat) : segmentsFrom profile n x index = segmentsFrom profile m x index := by
  induction n generalizing m x index with
  | zero =>
    rw [List.eq_nil_of_length_eq_zero (Nat.le_zero.mp hn)]
    cases m <;> rfl
  | succ n ih =>
    cases x with
    | nil => cases m <;> rfl
    | cons b rest =>
      cases m with
      | zero => simp at hm
      | succ m =>
        rw [List.length_cons] at hn hm
        unfold segmentsFrom
        split_ifs with hb
        · cases he : escapeAt (b :: rest) 0 profile with
          | error e =>
            dsimp only
            rw [ih (m := m) (by omega) (by omega)]
          | ok found =>
            obtain ⟨raw, rest', hx, hw, ht⟩ := exists_of_escapeAt hb (w := found.1)
              (c := found.2) he
            obtain ⟨_, body, _, _, rfl, -⟩ := ht
            have hlen := congrArg List.length hx
            simp only [List.length_append, List.length_cons] at hlen
            have hdrop : ((b :: rest).drop found.1).length ≤ rest.length := by
              rw [hw, hx, List.drop_left]
              omega
            dsimp only
            rw [ih (m := m) (by omega) (by omega)]
        · split
          · rename_i c rest' hc
            have hlen := congrArg List.length (Utf8.eq_of_decodeFirst_char hc)
            have hpos := Utf8.length_encodeChar_pos c
            rw [List.length_append, List.length_cons] at hlen
            rw [ih (m := m) (by omega) (by omega)]
          · rw [ih (m := m) (by omega) (by omega)]

@[simp] theorem segments_nil (index : Nat) : segments profile [] index = [] := rfl

variable {rest : List UInt8}

theorem segments_triple {raw : List UInt8} {c : Char} (h : IsTriple profile raw c) (index : Nat) :
    segments profile (raw ++ rest) index =
      (index, .triple) :: segments profile rest (index + raw.length) := by
  have he := h.escapeAt rest 0
  obtain ⟨m, body, _, _, rfl, hm, -⟩ := h
  unfold segments
  rw [List.cons_append] at he ⊢
  rw [List.length_cons, segmentsFrom, if_pos hm, he]
  simp only [List.length_cons, List.drop_succ_cons, List.drop_left]
  rw [segmentsFrom_eq (m := rest.length) (by simp) le_rfl]

theorem segments_damaged {m : UInt8} {tail : List UInt8} (hm : isMarkerByte m = true)
    {e : FileConversionError} (h : escapeAt (m :: tail) 0 profile = .error e) (index : Nat) :
    segments profile (m :: tail) index = (index, .damaged) ::
      segments profile tail (index + 1) := by
  unfold segments
  rw [List.length_cons, segmentsFrom, if_pos hm, h]

theorem segments_char {c : Char} (h : isMarkerCodePoint c.toNat = false) (rest : List UInt8)
    (index : Nat) :
    segments profile (String.utf8EncodeChar c ++ rest) index =
      (index, .readable c) :: segments profile rest (index + c.utf8Size) := by
  obtain ⟨b, tl, e, -⟩ := Utf8.encodeChar_cons c
  have hb : isMarkerByte b = false := isMarkerByte_of_mem_encodeChar h (by rw [e]; simp)
  have hd := Utf8.decodeFirst_encodeChar c rest
  rw [e, List.cons_append] at hd ⊢
  unfold segments
  rw [List.length_cons, segmentsFrom, hb, if_neg Bool.false_ne_true, hd]
  dsimp only
  rw [segmentsFrom_eq (m := rest.length) (by simp) le_rfl]

theorem segments_byte {b : UInt8} (h : Unreadable (b :: rest)) (index : Nat) :
    segments profile (b :: rest) index = (index, .legacy) :: segments profile rest (index + 1) := by
  have hb := isMarkerByte_eq_false (le_of_unreadable h)
  unfold segments
  rw [List.length_cons, segmentsFrom, hb, if_neg Bool.false_ne_true]
  split
  · rename_i c rest' hc
    exact absurd hc (h c rest')
  · rfl

@[simp] theorem refused_nil : refused profile [] = [] := rfl

@[simp] theorem refused_append (segs segs' : List Located) :
    refused profile (segs ++ segs') = refused profile segs ++ refused profile segs' :=
      List.filterMap_append ..

variable {segs : List Located}

theorem refused_eq_nil_of_sound (h : ∀ seg ∈ segs, isFaulty profile seg = false) :
    refused profile segs = [] := by
  unfold refused
  rw [List.filterMap_eq_nil_iff]
  rintro ⟨index, seg⟩ hseg
  have hsound := h _ hseg
  cases seg with
  | readable c => exact Option.isSome_eq_false_iff.mp hsound |> Option.isNone_iff_eq_none.mp
  | triple => rfl
  | damaged => rfl
  | legacy => rfl

/-! ## Runs -/

/-- The segments of the chunks of a run. -/
def chunkSegments : List Chunk → Nat → List Located
  | [], _ => []
  | .char c :: chunks, index => (index, .readable c) :: chunkSegments chunks (index + c.utf8Size)
  | .byte _ :: chunks, index => (index, .legacy) :: chunkSegments chunks (index + 1)

example : chunkSegments [.byte 0] 7 = [(7, .legacy)] := by rw [chunkSegments, chunkSegments]

theorem chunkSegments_append (chunks chunks' : List Chunk) (index : Nat) :
    chunkSegments (chunks ++ chunks') index =
      chunkSegments chunks index ++ chunkSegments chunks'
        (index + (chunks.flatMap Chunk.bytes).length) := by
  induction chunks generalizing index with
  | nil => rfl
  | cons chunk chunks ih =>
    cases chunk with
    | char c =>
      rw [List.cons_append, chunkSegments, ih, chunkSegments, List.flatMap_cons, List.length_append,
        Chunk.bytes, String.length_utf8EncodeChar, Nat.add_assoc]
      rfl
    | byte b =>
      rw [List.cons_append, chunkSegments, ih, chunkSegments, List.flatMap_cons, List.length_append,
        Chunk.bytes, List.length_singleton, Nat.add_assoc]
      rfl

theorem chunkSegments_chars (cs : List Char) (index : Nat) :
    (∀ seg ∈ chunkSegments (cs.map .char) index, isReadable seg = true) ∧
      refused profile (chunkSegments (cs.map .char) index) = refusalsFrom profile cs index := by
  induction cs generalizing index with
  | nil => exact ⟨by simp [chunkSegments], rfl⟩
  | cons c cs ih =>
    obtain ⟨hreadable, hrefused⟩ := ih (index + c.utf8Size)
    rw [List.map_cons, chunkSegments]
    refine ⟨List.forall_mem_cons.mpr ⟨rfl, hreadable⟩, ?_⟩
    rw [refusalsFrom_cons, ← hrefused]
    unfold refused
    rw [List.filterMap_cons]
    dsimp only
    cases refusal profile (index, c) <;> rfl

theorem chunkSegments_bytes (bytes : List UInt8) (index : Nat) :
    ∀ seg ∈ chunkSegments (bytes.map .byte) index, isReadable seg = false ∧
    isFaulty profile seg = false := by
  induction bytes generalizing index with
  | nil => simp [chunkSegments]
  | cons b bytes ih =>
    rw [List.map_cons, chunkSegments]
    exact List.forall_mem_cons.mpr ⟨⟨rfl, rfl⟩, ih (index + 1)⟩

theorem isFaulty_of_refused (hreadable : ∀ seg ∈ segs, isReadable seg = true)
    (h : refused profile segs = []) : ∀ seg ∈ segs, isFaulty profile seg = false := by
  rintro ⟨index, seg⟩ hseg
  unfold refused at h
  rw [List.filterMap_eq_nil_iff] at h
  have hnone := h _ hseg
  have hread := hreadable _ hseg
  cases seg with
  | readable c => exact Option.isSome_eq_false_iff.mpr (Option.isNone_iff_eq_none.mpr hnone)
  | triple => cases hread
  | damaged => cases hread
  | legacy => cases hread

/-- A run without markers, in front of what splits from it. -/
theorem segments_run {run : List UInt8} (h : ∀ b ∈ run, isMarkerByte b = false) (hs : Splits rest)
    (index : Nat) : segments profile (run ++ rest) index =
      chunkSegments (Utf8.lossy run) index ++ segments profile rest (index + run.length) := by
  induction run using Utf8.bytes_induction generalizing index with
  | nil => rfl
  | char c tail ih =>
    have hc : isMarkerCodePoint c.toNat = false := by
      by_contra hc
      obtain ⟨b, hb, hmarker, -⟩ := encodeChar_marker (Bool.eq_true_of_not_eq_false hc)
      rw [h b (by rw [hb]; simp)] at hmarker
      cases hmarker
    rw [List.append_assoc, segments_char hc, ih fun b hb => h b (List.mem_append_right _ hb),
      Utf8.lossy_char, chunkSegments, List.length_append, String.length_utf8EncodeChar,
      Nat.add_assoc]
    rfl
  | byte b tail hu ih =>
    rw [List.cons_append, segments_byte (Utf8.unreadable_append hu hs),
      ih fun b hb => h b (List.mem_cons_of_mem _ hb), Utf8.lossy_byte hu, chunkSegments,
        List.length_cons,
      Nat.add_assoc, Nat.add_comm 1]
    rfl

/-! ## The first fault -/

/-- The error that the first fault of some segments gives: a damaged marker, or the refused code
points of a readable run that goes as far as it can. -/
inductive FirstFault (profile : Profile) : List Located → FileConversionError → Prop
  | damaged {before after : List Located} {index : Nat} (hsound : ∀ seg ∈ before,
      isFaulty profile seg = false) :
    FirstFault profile (before ++ (index, .damaged) :: after) (.brokenEscape index)
  | refused {before run after : List Located} (hsound : ∀ seg ∈ before,
      isFaulty profile seg = false)
    (hreadable : ∀ seg ∈ run, isReadable seg = true) (hrefused : refused profile run ≠ [])
    (hends : ∀ seg ∈ after.head?, isReadable seg = false) :
    FirstFault profile (before ++ (run ++ after)) (.unencodable ⟨Transcode.refused profile run⟩)

theorem FirstFault.prepend {before : List Located} {error : FileConversionError}
    (hsound : ∀ seg ∈ before, isFaulty profile seg = false) (h : FirstFault profile segs error) :
    FirstFault profile (before ++ segs) error := by
  cases h with
  | damaged hbefore =>
    rw [← List.append_assoc]
    exact .damaged (List.forall_mem_append.mpr ⟨hsound, hbefore⟩)
  | refused hbefore hreadable hrefused hends =>
    rw [← List.append_assoc]
    exact .refused (List.forall_mem_append.mpr ⟨hsound, hbefore⟩) hreadable hrefused hends

/-- Segments behind the first fault do not change it, unless they would continue a run. -/
theorem FirstFault.append {rest : List Located} {error : FileConversionError}
    (h : FirstFault profile segs error) (hends : ∀ seg ∈ rest.head?, isReadable seg = false) :
    FirstFault profile (segs ++ rest) error := by
  cases h with
  | damaged hsound =>
    rw [List.append_assoc, List.cons_append]
    exact .damaged hsound
  | @refused before run after hsound hreadable hrefused hafter =>
    rw [List.append_assoc, List.append_assoc]
    refine .refused hsound hreadable hrefused ?_
    cases after with
    | nil => exact hends
    | cons seg after => exact hafter

theorem not_firstFault_invalidUtf8 (segs : List Located) :
    ¬FirstFault profile segs .invalidUtf8 := by
  intro h
  cases h

theorem dropWhile_sound {before rest : List Located}
    (h : ∀ seg ∈ before, isFaulty profile seg = false) :
    (before ++ rest).dropWhile (fun seg => !isFaulty profile seg) =
      rest.dropWhile fun seg => !isFaulty profile seg :=
  List.dropWhile_append_of_pos fun seg hseg => by rw [h seg hseg, Bool.not_false]

/-- Behind a damaged marker nothing counts. -/
theorem unreported_of_damaged {index : Nat}
    (h : FirstFault profile segs (.brokenEscape index)) : unreported profile segs = [] := by
  cases h with
  | damaged hsound =>
    unfold unreported
    rw [dropWhile_sound hsound, List.dropWhile_cons_of_neg (by simp [isFaulty])]

/-- What the error of a run does not list is refused behind the run. -/
theorem refused_of_refused {error : EncodeError}
    (h : FirstFault profile segs (.unencodable error)) :
    refused profile segs = error.unencodable ++ unreported profile segs := by
  cases h with
  | @refused before run after hsound hreadable hrefused hends =>
    have hrest : unreported profile (before ++ (run ++ after)) =
      Transcode.refused profile after := by
      -- The run goes on from its first fault to its end.
      have hsplit := List.takeWhile_append_dropWhile (p := fun seg => !isFaulty profile seg)
        (l := run)
      cases htail : run.dropWhile fun seg => !isFaulty profile seg with
      | nil =>
        rw [htail, List.append_nil] at hsplit
        refine absurd (refused_eq_nil_of_sound fun seg hseg => ?_) hrefused
        rw [← hsplit] at hseg
        simpa using List.mem_takeWhile_imp hseg
      | cons seg tail =>
        have hmem : ∀ other ∈ seg :: tail, isReadable other = true := by
          intro other hother
          refine hreadable other ?_
          rw [← hsplit, htail]
          exact List.mem_append_right _ hother
        have hdrop : (before ++ (run ++ after)).dropWhile (fun seg => !isFaulty profile seg) =
            seg :: tail ++ after := by
          rw [dropWhile_sound hsound, List.dropWhile_append, htail]
          rfl
        have hafter : after.dropWhile isReadable = after := by
          cases after with
          | nil => rfl
          | cons next after => exact List.dropWhile_cons_of_neg (by rw [hends next rfl]; simp)
        have hread := hmem seg List.mem_cons_self
        unfold unreported
        rw [hdrop]
        obtain ⟨index, kind⟩ := seg
        cases kind with
        | readable c =>
          show Transcode.refused profile (((index, .readable c) :: tail ++ after).dropWhile
            isReadable) = _
          rw [List.dropWhile_append_of_pos hmem, hafter]
        | triple => cases hread
        | damaged => cases hread
        | legacy => cases hread
    rw [hrest, refused_append, refused_append, refused_eq_nil_of_sound hsound, List.nil_append]

/-! ## Encoding fails with the first fault -/

/-- Encoding goes through where no segment is faulty, and fails with the first fault elsewhere. -/
def Judged (profile : Profile) (segs : List Located) : Except FileConversionError (List UInt8) →
    Prop
  | .ok _ => ∀ seg ∈ segs, isFaulty profile seg = false
  | .error error => FirstFault profile segs error

theorem Judged.prepend {before segs : List Located}
    {outcome : Except FileConversionError (List UInt8)}
    (hsound : ∀ seg ∈ before, isFaulty profile seg = false) (h : Judged profile segs outcome) :
    Judged profile (before ++ segs) outcome := by
  cases outcome with
  | ok output => exact List.forall_mem_append.mpr ⟨hsound, h⟩
  | error error => exact FirstFault.prepend hsound h

theorem refusalsFrom_shift (cs : List Char) (index base : Nat) :
    ((refusalsFrom profile cs index).map fun point =>
      { point with byteIndex := point.byteIndex + base }) =
      refusalsFrom profile cs (index + base) := by
  induction cs generalizing index with
  | nil => rfl
  | cons c cs ih =>
    rw [refusalsFrom_cons, List.map_append, ih, refusalsFrom_cons, Nat.add_right_comm]
    congr 1
    unfold refusal
    cases fileUnencodableKind c.toNat profile <;> rfl

/-- The text of a run is encoded as a whole, at its offset. -/
theorem judged_text (cs : List Char) (set : EscapeSet) (base : Nat) :
    (refusalsFrom profile cs 0 = [] ∧ encodeFile cs profile set =
      .ok (cs.flatMap (charBytes profile set)) ∧
      ∀ seg ∈ chunkSegments (cs.map .char) base, isFaulty profile seg = false) ∨
    (∃ error, encodeFile cs profile set = .error error ∧
      refused profile (chunkSegments (cs.map .char) base) ≠ [] ∧
      (error.unencodable.map fun point => { point with byteIndex := point.byteIndex + base }) =
        refused profile (chunkSegments (cs.map .char) base)) := by
  obtain ⟨hreadable, hrefused⟩ := @chunkSegments_chars profile cs base
  have hshift := @refusalsFrom_shift profile cs 0 base
  rw [Nat.zero_add, ← hrefused] at hshift
  rw [encodeFile_eq]
  split_ifs with h
  · rw [h] at hshift
    exact .inl ⟨h, rfl, isFaulty_of_refused hreadable hshift.symm⟩
  · refine .inr ⟨_, rfl, fun hnil => h ?_, hshift⟩
    rw [hnil] at hshift
    exact List.map_eq_nil_iff.mp hshift

theorem flatMap_bytes_chars (cs : List Char) : (cs.map Chunk.char).flatMap Chunk.bytes =
    Utf8.encode cs := by
  rw [List.flatMap_map]
  rfl

theorem flatMap_bytes_stray (bytes : List UInt8) :
    (bytes.map Chunk.byte).flatMap Chunk.bytes = bytes := by
  rw [List.flatMap_map]
  exact List.flatMap_singleton' bytes

theorem encodeRun_judged {set : EscapeSet} {fuel : Nat} {run : List UInt8} (h : run.length ≤ fuel)
    (hutf : profile = .localisation → ∃ cs, run = Utf8.encode cs) (base : Nat) :
    Judged profile (chunkSegments (Utf8.lossy run) base) (encodeRun profile set fuel run base) := by
  induction fuel generalizing run base with
  | zero =>
    rw [List.eq_nil_of_length_eq_zero (Nat.le_zero.mp h)]
    exact fun seg hseg => (by cases hseg)
  | succ fuel ih =>
    unfold encodeRun
    obtain ⟨cs, rfl | ⟨b, rest, rfl, hu⟩⟩ := Utf8.exists_encode_append run
    · rw [Utf8.fromUtf8_encode, Utf8.lossy_encode]
      by_cases hempty : (Utf8.encode cs).isEmpty = true
      · rw [if_pos hempty]
        have hnil : cs = [] := Utf8.encode_injective (List.isEmpty_iff.mp hempty)
        subst hnil
        exact fun seg hseg => (by cases hseg)
      rw [if_neg hempty]
      dsimp only
      rcases @judged_text profile cs set base with
        ⟨-, hok, hsound⟩ | ⟨error, herror, hne, hsame⟩
      · have hrest (base' : Nat) : encodeRun profile set fuel [] base' = .ok [] := by cases fuel <;>
          rfl
        rw [hok]
        dsimp only
        rw [Nat.add_zero, List.drop_length, hrest]
        exact hsound
      · rw [herror]
        dsimp only
        rw [hsame]
        have hfault := @FirstFault.refused profile [] _ []
          (by simp) (@chunkSegments_chars profile cs base).1 hne (by simp)
        rwa [List.append_nil] at hfault
    · obtain ⟨error, he, hup, hwidth⟩ := Utf8.fromUtf8_error cs hu
      obtain ⟨hpos, hsub⟩ := Utf8.lossy_subpart hu
      have hscript : profile = .script := by
        cases profile with
        | script => rfl
        | localisation =>
          obtain ⟨ds, hds⟩ := hutf rfl
          rw [hds, Utf8.fromUtf8_encode] at he
          cases he
      subst hscript
      have hne : (Utf8.encode cs ++ b :: rest).isEmpty = false := by simp
      have hlen := length_behind_le hpos h
      rw [hne, if_neg Bool.false_ne_true, he, Utf8.lossy_encode_append, hsub, chunkSegments_append,
        chunkSegments_append]
      simp only [if_true, hwidth]
      rw [hup, List.take_left, Utf8.fromUtf8_encode]
      dsimp only
      rw [List.drop_length_add_append, flatMap_bytes_chars, flatMap_bytes_stray]
      have hbytes := @chunkSegments_bytes .script ((b :: rest).take (Utf8.subpartLen (b :: rest)))
        (base + (Utf8.encode cs).length)
      rcases @judged_text .script cs set base with
        ⟨-, hok, hsound⟩ | ⟨error, herror, hrefused, hsame⟩
      · have hat : chunkSegments (Utf8.lossy ((b :: rest).drop (Utf8.subpartLen (b :: rest))))
            (base + (Utf8.encode cs).length +
              ((b :: rest).take (Utf8.subpartLen (b :: rest))).length) =
          chunkSegments (Utf8.lossy ((b :: rest).drop (Utf8.subpartLen (b :: rest))))
            (base + ((Utf8.encode cs).length + Utf8.subpartLen (b :: rest))) := by
          rcases Nat.le_total (Utf8.subpartLen (b :: rest)) (b :: rest).length with hle | hle
          · rw [List.length_take, Nat.min_eq_left hle, Nat.add_assoc]
          · rw [List.drop_eq_nil_of_le hle]
            rfl
        have ih' := ih hlen (fun hloc => (by cases hloc))
          (base + ((Utf8.encode cs).length + Utf8.subpartLen (b :: rest)))
        rw [hok, hat]
        dsimp only
        refine Judged.prepend hsound (Judged.prepend (fun seg hseg => (hbytes seg hseg).2) ?_)
        cases hrest : encodeRun .script set fuel ((b :: rest).drop (Utf8.subpartLen (b :: rest)))
            (base + ((Utf8.encode cs).length + Utf8.subpartLen (b :: rest))) with
        | error error' =>
          rw [hrest] at ih'
          exact ih'
        | ok output =>
          rw [hrest] at ih'
          exact ih'
      · rw [herror]
        dsimp only
        rw [hsame]
        refine @FirstFault.refused _ [] _ _ (by simp) (@chunkSegments_chars .script cs base).1
          hrefused ?_
        obtain ⟨size, hsize⟩ := Nat.exists_eq_succ_of_ne_zero (Nat.pos_iff_ne_zero.mp hpos)
        rw [hsize, List.take_succ_cons, List.map_cons, chunkSegments, List.cons_append]
        simp [isReadable]

/-- Text behind text is text. -/
theorem exists_encode_of_append {cs : List Char}
    (h : ∃ ds, Utf8.encode cs ++ rest = Utf8.encode ds) : ∃ es, rest = Utf8.encode es := by
  induction cs with
  | nil => exact h
  | cons c cs ih =>
    obtain ⟨ds, hds⟩ := h
    rw [Utf8.encode_cons, List.append_assoc] at hds
    obtain ⟨es, -, hes⟩ := Utf8.exists_of_encode_eq hds
    exact ih ⟨es, hes⟩

/-- Text in front of a split is text. -/
theorem exists_encode_of_splits {run : List UInt8} (hs : Splits rest)
    (h : ∃ ds, run ++ rest = Utf8.encode ds) : ∃ es, run = Utf8.encode es := by
  obtain ⟨cs, rfl | ⟨b, tail, rfl, hu⟩⟩ := Utf8.exists_encode_append run
  · exact ⟨cs, rfl⟩
  · rw [List.append_assoc] at h
    obtain ⟨es, hes⟩ := exists_encode_of_append h
    cases es with
    | nil => simp at hes
    | cons c es =>
      have hunread := Utf8.unreadable_append hu hs
      rw [← List.cons_append, hes, Utf8.encode_cons] at hunread
      exact absurd hunread Utf8.not_unreadable_encodeChar

/-- The segments behind a run do not go on with it. -/
theorem segments_ends (h : ∀ b ∈ rest.head?, isMarkerByte b = true) (index : Nat) :
    ∀ seg ∈ (segments profile rest index).head?, isReadable seg = false := by
  cases rest with
  | nil => simp
  | cons m tail =>
    have hm := h m rfl
    unfold segments
    rw [List.length_cons, segmentsFrom, if_pos hm]
    cases escapeAt (m :: tail) 0 profile with
    | ok found => simp [isReadable]
    | error e => simp [isReadable]

/-- A marker that starts no triple is reported where it stands. -/
theorem escapeAt_error {m : UInt8} {tail : List UInt8} {start : Nat} {error : FileConversionError}
    (h : escapeAt (m :: tail) start profile = .error error) :
    error = .brokenEscape start ∧ ∃ error', escapeAt (m :: tail) 0 profile = .error error' := by
  constructor
  · unfold escapeAt at h
    dsimp only at h
    split at h
    · split_ifs at h
      · cases h
        rfl
      · split at h
        · cases h
        · cases h
          rfl
      · cases h
        rfl
    · cases h
      rfl
  · cases hzero : escapeAt (m :: tail) 0 profile with
    | error error' => exact ⟨error', rfl⟩
    | ok found =>
      obtain ⟨width, c⟩ := found
      have hok : escapeAt (m :: tail) start profile = .ok (width, c) :=
        escapeAt_eq_ok_iff.mpr (escapeAt_eq_ok_iff.mp hzero)
      rw [hok] at h
      cases h

/-- Behind a run comes a marker. -/
theorem head?_dropWhile_run (x : List UInt8) :
    ∀ b ∈ (x.dropWhile fun b => !isMarkerByte b).head?, isMarkerByte b = true := by
  intro b hb
  have hmarker := List.head?_dropWhile_not (fun b => !isMarkerByte b) x
  rw [Option.mem_def.mp hb] at hmarker
  simpa using hmarker

theorem splits_of_marker (h : ∀ b ∈ rest.head?, isMarkerByte b = true) : Splits rest := by
  cases rest with
  | nil => exact Utf8.splits_nil
  | cons b rest => exact splits_marker (h b rfl)

theorem convertFrom_judged {set : EscapeSet} {fuel : Nat} {x : List UInt8} (h : x.length ≤ fuel)
    (hutf : profile = .localisation → ∃ cs, x = Utf8.encode cs) (index : Nat) :
    Judged profile (segments profile x index) (convertFrom profile (.encode set) fuel x index) := by
  induction fuel generalizing x index with
  | zero =>
    rw [List.eq_nil_of_length_eq_zero (Nat.le_zero.mp h)]
    exact fun seg hseg => (nomatch hseg)
  | succ fuel ih =>
    cases x with
    | nil => exact fun seg hseg => (nomatch hseg)
    | cons b rest =>
      unfold convertFrom
      dsimp only
      by_cases hm : isMarkerByte b = true
      · rw [if_pos hm]
        cases he : escapeAt (b :: rest) index profile with
        | error e =>
          obtain ⟨rfl, e', he'⟩ := escapeAt_error he
          rw [segments_damaged hm he']
          exact @FirstFault.damaged _ [] _ _ (by simp)
        | ok found =>
          obtain ⟨raw, rest', hx, hw, ht⟩ := exists_of_escapeAt hm (w := found.1) (c := found.2) he
          have hlen : rest'.length ≤ fuel := by
            have := congrArg List.length hx
            obtain ⟨_, _, _, _, rfl, -⟩ := ht
            simp only [List.length_append, List.length_cons] at this h
            omega
          have hrest (hloc : profile = .localisation) : ∃ cs, rest' = Utf8.encode cs := by
            subst hloc
            obtain ⟨m, c₁, c₂, _, _, hraw, -⟩ := ht.exists_encode
            obtain ⟨ds, hds⟩ := hutf rfl
            exact exists_encode_of_append ⟨ds, by rw [← hraw, ← hx, hds]⟩
          have ih' := ih hlen hrest (index + raw.length)
          simp only [hw, hx, List.take_left, List.drop_left]
          rw [segments_triple ht]
          refine @Judged.prepend _ [(index, .triple)] _ _ (by simp [isFaulty]) ?_
          cases hconverted : convertFrom profile (.encode set) fuel rest' (index + raw.length) with
          | error error =>
            rw [hconverted] at ih'
            exact ih'
          | ok output =>
            rw [hconverted] at ih'
            exact ih'
      · rw [if_neg hm]
        have hx := List.takeWhile_append_dropWhile (p := fun b => !isMarkerByte b) (l := b :: rest)
        have hhead := head?_dropWhile_run (b :: rest)
        have hrun : ∀ b' ∈ (b :: rest).takeWhile (fun b => !isMarkerByte b),
          isMarkerByte b' = false := by
          intro b' hb'
          simpa using List.mem_takeWhile_imp hb'
        have hpos : 0 < ((b :: rest).takeWhile fun b => !isMarkerByte b).length := by
          rw [List.takeWhile_cons]
          simp [hm]
        generalize (b :: rest).takeWhile (fun b => !isMarkerByte b) = run at hx hrun hpos
        generalize (b :: rest).dropWhile (fun b => !isMarkerByte b) = rest' at hx hhead
        have hlen : rest'.length ≤ fuel := by
          have := congrArg List.length hx
          rw [List.length_append] at this
          omega
        have hsplits := splits_of_marker hhead
        have htext (hloc : profile = .localisation) : ∃ cs, run = Utf8.encode cs := by
          obtain ⟨ds, hds⟩ := hutf hloc
          exact exists_encode_of_splits hsplits ⟨ds, by rw [hx, hds]⟩
        have hrest (hloc : profile = .localisation) : ∃ cs, rest' = Utf8.encode cs := by
          obtain ⟨es, hes⟩ := htext hloc
          obtain ⟨ds, hds⟩ := hutf hloc
          exact exists_encode_of_append ⟨ds, by rw [← hes, hx, hds]⟩
        have ih' := ih hlen hrest (index + run.length)
        have hjudged := @encodeRun_judged profile set _ _ (Nat.le_refl run.length) htext index
        rw [← hx, List.drop_left, segments_run hrun hsplits]
        unfold convertRun
        dsimp only
        cases hencoded : encodeRun profile set run.length run index with
        | error error =>
          rw [hencoded] at hjudged
          exact FirstFault.append hjudged (segments_ends hhead _)
        | ok piece =>
          rw [hencoded] at hjudged
          dsimp only
          refine Judged.prepend hjudged ?_
          cases hconverted : convertFrom profile (.encode set) fuel rest' (index + run.length) with
          | error error =>
            rw [hconverted] at ih'
            exact ih'
          | ok output =>
            rw [hconverted] at ih'
            exact ih'

end

/-! ## What the error lists -/

theorem convert_of_utf8 {x : List UInt8} {profile : Profile} (direction : Direction)
    (h : profile = .localisation → ∃ text, Utf8.fromUtf8 x = .ok text) :
    convert x profile direction = convertFrom profile direction x.length x 0 := by
  unfold convert
  cases profile with
  | script => rfl
  | localisation =>
    obtain ⟨text, htext⟩ := h rfl
    rw [htext]

theorem convert_of_not_utf8 {x : List UInt8} {profile : Profile} (direction : Direction)
    (h : ¬(profile = .localisation → ∃ text, Utf8.fromUtf8 x = .ok text)) :
    convert x profile direction = .error .invalidUtf8 := by
  obtain ⟨rfl, hno⟩ := Classical.not_imp.mp h
  unfold convert
  cases htext : Utf8.fromUtf8 x with
  | ok text => exact absurd ⟨text, htext⟩ hno
  | error error => rfl

/-- **Whole-file encoding reports every refused character** exactly where nothing is refused behind
the run of the first one. -/
theorem encodeBuffer_reports_iff (x : List UInt8) (profile : Profile) (set : EscapeSet) :
    (∀ error, encodeBuffer x profile set = .error (.unencodable error) →
      error.unencodable = refusedIn profile x) ↔ AllReported profile x := by
  unfold AllReported encodeBuffer
  by_cases hutf : profile = .localisation → ∃ text, Utf8.fromUtf8 x = .ok text
  · have hjudged := @convertFrom_judged profile set _ _ (Nat.le_refl x.length)
      (fun hloc => (hutf hloc).imp fun text htext => Utf8.fromUtf8_eq_ok_iff.mp htext) 0
    rw [convert_of_utf8 _ hutf]
    cases hfrom : convertFrom profile (.encode set) x.length x 0 with
    | ok output =>
      rw [hfrom] at hjudged
      refine ⟨fun _ _ => ?_, fun _ error herror => by cases herror⟩
      unfold unreported
      rw [List.dropWhile_eq_nil_iff.mpr fun seg hseg => by rw [hjudged seg hseg, Bool.not_false]]
    | error failure =>
      rw [hfrom] at hjudged
      have hfault : FirstFault profile (segments profile x 0) failure := hjudged
      cases failure with
      | invalidUtf8 => exact absurd hfault (not_firstFault_invalidUtf8 _)
      | brokenEscape index =>
        exact ⟨fun _ _ => unreported_of_damaged hfault, fun _ error herror => by cases herror⟩
      | unencodable error =>
        have hall : refusedIn profile x = error.unencodable ++
          unreported profile (segments profile x 0) :=
          refused_of_refused hfault
        constructor
        · intro h _
          have hlisted := h error rfl
          rw [hall] at hlisted
          exact List.self_eq_append_right.mp hlisted
        · intro h error' herror
          cases herror
          rw [hall, h hutf, List.append_nil]
  · rw [convert_of_not_utf8 _ hutf]
    exact ⟨fun _ h => absurd h hutf, fun _ error herror => by cases herror⟩

/-- A letter that scripts cannot hold, a legacy byte and the letter again: only the first one is
listed. -/
theorem encodeBuffer_reports_first : ¬∀ (x : List UInt8) (profile : Profile) (set : EscapeSet)
    (error : EncodeError), encodeBuffer x profile set = .error (.unencodable error) →
    error.unencodable = refusedIn profile x := by
  intro h
  have hfirst := h [0xC4, 0x80, 0xFF, 0xC4, 0x80] .script .paratranz
    ⟨[⟨0, 0x100, .mangledLowPlane⟩]⟩ (by decide +kernel)
  revert hfirst
  decide +kernel

end ParadoxCode.Transcode

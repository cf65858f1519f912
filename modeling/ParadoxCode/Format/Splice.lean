import Mathlib.Data.List.Nodup
import ParadoxCode.Format.Edits

/-!
# Edits back to front

What a list of edits that stand apart makes of a text when they are applied from the back, and where
the replacement of each of them lands.
-/

namespace ParadoxCode.Format

/-- Each edit ends before the one in front of it in the list starts. -/
def Descending (edits : List TextEdit) : Prop :=
  edits.Pairwise fun later earlier => earlier.range.stop ≤ later.range.start

/-- Each range is one of the text. -/
def InText (text : Str) (edits : List TextEdit) : Prop :=
  ∀ edit ∈ edits, (getText text edit.range.start edit.range.stop).isSome = true

/-- How many bytes the ranges have, and how many the replacements. -/
def removedBytes (edits : List TextEdit) : Nat :=
  (edits.map fun edit => edit.range.stop - edit.range.start).sum

def insertedBytes (edits : List TextEdit) : Nat :=
  (edits.map fun edit => byteLen edit.replacement).sum

/-- The edits before a range, but for one at the range itself. -/
def editsBefore (edits : List TextEdit) (range : TextRange) : List TextEdit :=
  edits.filter fun edit => decide (edit.range.stop ≤ range.start) && edit.range != range

/-- Where a range starts behind the edits. -/
def landingStart (edits : List TextEdit) (range : TextRange) : Nat :=
  range.start + insertedBytes (editsBefore edits range) - removedBytes (editsBefore edits range)

/-- Where it ends: the length is that of the replacement, if the range is replaced. -/
def landingStop (edits : List TextEdit) (range : TextRange) : Nat :=
  landingStart edits range +
    match edits.find? fun edit => edit.range == range with
    | some edit => byteLen edit.replacement
    | none => range.stop - range.start

/-- The text that a range has behind the edits. -/
def landed (text : Str) (edits : List TextEdit) (range : TextRange) : Option Str :=
  getText (edits.foldl replaceRange text) (landingStart edits range) (landingStop edits range)

/-- A plan that gives each range of a set one replacement, from the back. -/
structure Overwrites (plan : List TextEdit) (ranges : Set TextRange)
    (replacement : Str) : Prop where
  replaced : ∀ edit ∈ plan, edit.replacement = replacement
  mem_iff : ∀ range, range ∈ plan.map TextEdit.range ↔ range ∈ ranges
  nodup : (plan.map TextEdit.range).Nodup
  descending : Descending plan

/-- There is one such plan. -/
theorem Overwrites.unique {plan other : List TextEdit} {ranges : Set TextRange} {replacement : Str}
    (h : Overwrites plan ranges replacement) (hother : Overwrites other ranges replacement) :
    plan = other := by
  have hperm : (plan.map TextEdit.range).Perm (other.map TextEdit.range) :=
    (List.perm_ext_iff_of_nodup h.nodup hother.nodup).mpr fun range =>
      (h.mem_iff range).trans (hother.mem_iff range).symm
  have hranges : plan.map TextEdit.range = other.map TextEdit.range := by
    have hback : ∀ {edits : List TextEdit}, Descending edits →
        (edits.map TextEdit.range).Pairwise fun later earlier => earlier.stop ≤ later.start :=
      fun hedits => List.pairwise_map.mpr hedits
    refine hperm.eq_of_pairwise ?_ (hback h.descending) (hback hother.descending)
    rintro ⟨start, stop, hle⟩ ⟨start', stop', hle'⟩ - - hbehind hbefore
    dsimp only at hbehind hbefore
    obtain ⟨rfl, rfl⟩ : start = start' ∧ stop = stop' := by omega
    rfl
  have hrebuilt : ∀ {edits : List TextEdit}, (∀ edit ∈ edits, edit.replacement = replacement) →
      (edits.map TextEdit.range).map (fun range => ⟨range, replacement⟩) = edits := by
    intro edits hedits
    rw [List.map_map]
    refine (List.map_congr_left fun edit hedit => ?_).trans (List.map_id edits)
    rw [Function.comp_apply, ← hedits edit hedit]
    rfl
  rw [← hrebuilt h.replaced, ← hrebuilt hother.replaced, hranges]

theorem getText_append_left {front back text : Str} {start stop : Nat}
    (hstop : stop ≤ byteLen front) :
    getText (front ++ back) start stop = some text ↔ getText front start stop = some text := by
  rw [getText_eq_some_iff, getText_eq_some_iff]
  constructor
  · rintro ⟨before, after, heq, rfl, rfl⟩
    rw [← byteLen_append] at hstop
    obtain ⟨middle, rfl, rfl⟩ := append_prefix_byteLen heq.symm hstop
    exact ⟨before, middle, rfl, rfl, rfl⟩
  · rintro ⟨before, after, rfl, rfl, rfl⟩
    exact ⟨before, after ++ back, by simp, rfl, rfl⟩

theorem replaceRange_cut {before old after : Str} {edit : TextEdit}
    (hstart : byteLen before = edit.range.start)
    (hstop : edit.range.start + byteLen old = edit.range.stop) :
    replaceRange (before ++ old ++ after) edit = before ++ edit.replacement ++ after := by
  have hbefore : getText (before ++ old ++ after) 0 edit.range.start = some before :=
    getText_eq_some_iff.mpr ⟨[], old ++ after, by simp, rfl, by rw [Nat.zero_add, hstart]⟩
  have hold : getText (before ++ old ++ after) edit.range.start edit.range.stop = some old :=
    getText_eq_some_iff.mpr ⟨before, after, rfl, hstart, hstop⟩
  have hafter : getText (before ++ old ++ after) edit.range.stop
    (byteLen (before ++ old ++ after)) = some after :=
    getText_eq_some_iff.mpr ⟨before ++ old, [], by simp, by rw [byteLen_append, hstart, hstop], by
      rw [← hstop, ← hstart, byteLen_append (before ++ old), byteLen_append]⟩
  rw [replaceRange, hbefore, hold, hafter]

/-- What comes in front of all edits is kept. -/
theorem foldl_replaceRange_front {front : Str} {edits : List TextEdit}
    (hdescending : Descending edits) :
    ∀ {back : Str}, InText (front ++ back) edits →
      (∀ edit ∈ edits, byteLen front ≤ edit.range.start) →
      ∃ back', edits.foldl replaceRange (front ++ back) = front ++ back' := by
  induction hdescending with
  | nil => exact fun _ _ => ⟨_, rfl⟩
  | @cons edit edits hedit _ ih =>
    intro back hvalid hfront
    obtain ⟨old, hold⟩ := Option.isSome_iff_exists.mp (hvalid edit List.mem_cons_self)
    obtain ⟨before, after, heq, hstart, hstop⟩ := getText_eq_some_iff.mp hold
    obtain ⟨middle, rfl, -⟩ : ∃ middle, before = front ++ middle ∧
      back = middle ++ (old ++ after) :=
      append_prefix_byteLen (by rw [heq, List.append_assoc])
        (hstart ▸ hfront edit List.mem_cons_self)
    rw [List.foldl_cons, heq, replaceRange_cut hstart hstop, List.append_assoc, List.append_assoc]
    refine ih ?_ fun other hother => hfront other (List.mem_cons_of_mem _ hother)
    intro other hother
    obtain ⟨text, htext⟩ := Option.isSome_iff_exists.mp
      (hvalid other (List.mem_cons_of_mem _ hother))
    have hle : other.range.stop ≤ byteLen (front ++ middle) := hstart ▸ hedit other hother
    rw [heq, List.append_assoc (front ++ middle)] at htext
    rw [← List.append_assoc front]
    exact Option.isSome_of_eq_some ((getText_append_left hle).mpr
      ((getText_append_left hle).mp htext))

/-- What comes behind all edits is kept, and moves by what they insert and remove. -/
theorem foldl_replaceRange_back {edits : List TextEdit} (hdescending : Descending edits) :
    ∀ {front : Str} (back : Str), InText front edits →
      ∃ front', edits.foldl replaceRange (front ++ back) = front' ++ back ∧
        byteLen front' + removedBytes edits = byteLen front + insertedBytes edits := by
  induction hdescending with
  | nil => exact fun _ _ => ⟨_, rfl, rfl⟩
  | @cons edit edits hedit _ ih =>
    intro front back hvalid
    obtain ⟨old, hold⟩ := Option.isSome_iff_exists.mp (hvalid edit List.mem_cons_self)
    obtain ⟨before, after, rfl, hstart, hstop⟩ := getText_eq_some_iff.mp hold
    have hbefore : InText before edits := by
      intro other hother
      obtain ⟨text, htext⟩ := Option.isSome_iff_exists.mp
        (hvalid other (List.mem_cons_of_mem _ hother))
      have hle : other.range.stop ≤ byteLen before := hstart ▸ hedit other hother
      rw [List.append_assoc] at htext
      exact Option.isSome_of_eq_some ((getText_append_left hle).mp htext)
    obtain ⟨before', hfold, hlen⟩ := ih (edit.replacement ++ (after ++ back)) hbefore
    refine ⟨before' ++ edit.replacement ++ after, ?_, ?_⟩
    · rw [List.foldl_cons, List.append_assoc (before ++ old), replaceRange_cut hstart hstop,
        List.append_assoc, hfold]
      simp only [List.append_assoc]
    · have hremoved : edit.range.stop - edit.range.start = byteLen old := by omega
      simp only [removedBytes, insertedBytes, List.map_cons, List.sum_cons, byteLen_append,
        hremoved] at hlen ⊢
      omega

variable {text : Str} {edits : List TextEdit} {edit : TextEdit}

/-- Of edits that stand apart, those behind an edit in the list are the ones before it in the
text. -/
theorem editsBefore_eq {later earlier : List TextEdit}
    (hdescending : Descending (later ++ edit :: earlier))
    (hnodup : ((later ++ edit :: earlier).map TextEdit.range).Nodup) :
    editsBefore (later ++ edit :: earlier) edit.range = earlier := by
  obtain ⟨-, htail, hcross⟩ := List.pairwise_append.mp hdescending
  have hearlier : ∀ other ∈ earlier, other.range.stop ≤ edit.range.start := fun other hother =>
    List.rel_of_pairwise_cons htail hother
  rw [List.map_append, List.map_cons, List.nodup_append] at hnodup
  obtain ⟨-, hbehind, hfront⟩ := hnodup
  unfold editsBefore
  rw [List.filter_append, List.filter_cons_of_neg (by simp), List.filter_eq_nil_iff.mpr ?_,
    List.filter_eq_self.mpr ?_, List.nil_append]
  · intro other hother
    have hne : other.range ≠ edit.range := by
      intro heq
      exact (List.nodup_cons.mp hbehind).1 (heq ▸ List.mem_map_of_mem hother)
    rw [Bool.and_eq_true, decide_eq_true_eq, bne_iff_ne]
    exact ⟨hearlier other hother, hne⟩
  · intro other hother h
    rw [Bool.and_eq_true, decide_eq_true_eq, bne_iff_ne] at h
    have hafter := hcross other hother edit List.mem_cons_self
    -- both before and after: the two ranges are one empty range
    have hstart : other.range.start = edit.range.start := by
      have := other.range.le
      have := edit.range.le
      omega
    have hstop : other.range.stop = edit.range.stop := by
      have := other.range.le
      have := edit.range.le
      omega
    apply h.2
    obtain ⟨⟨_, _, _⟩, _⟩ := other
    obtain ⟨⟨_, _, _⟩, _⟩ := edit
    cases hstart
    cases hstop
    rfl

theorem find?_range (hnodup : (edits.map TextEdit.range).Nodup) (hedit : edit ∈ edits) :
    (edits.find? fun other => other.range == edit.range) = some edit := by
  cases hfind : edits.find? fun other => other.range == edit.range with
  | none => exact absurd (List.find?_eq_none.mp hfind edit hedit) (by simp)
  | some other =>
    have hrange : other.range = edit.range := by simpa using List.find?_some hfind
    rw [List.inj_on_of_nodup_map hnodup (List.mem_of_find?_eq_some hfind) hedit hrange]

/-- Each replacement lands where its range lands. -/
theorem landed_eq (hdescending : Descending edits) (hnodup : (edits.map TextEdit.range).Nodup)
    (hvalid : InText text edits) (hedit : edit ∈ edits) :
    landed text edits edit.range = some edit.replacement := by
  have hfind := find?_range hnodup hedit
  obtain ⟨later, earlier, rfl⟩ := List.append_of_mem hedit
  have hbefore := editsBefore_eq hdescending hnodup
  obtain ⟨hlater, htail, hcross⟩ := List.pairwise_append.mp hdescending
  obtain ⟨old, hold⟩ := Option.isSome_iff_exists.mp (hvalid edit hedit)
  obtain ⟨before, after, rfl, hstart, hstop⟩ := getText_eq_some_iff.mp hold
  have hfront : byteLen (before ++ old) = edit.range.stop := by rw [byteLen_append, hstart, hstop]
  obtain ⟨after', hafter⟩ := foldl_replaceRange_front hlater
    (fun other hother => hvalid other (List.mem_append_left _ hother))
    fun other hother => hfront ▸ hcross other hother edit List.mem_cons_self
  have hearlier : InText before earlier := by
    intro other hother
    obtain ⟨text, htext⟩ := Option.isSome_iff_exists.mp
      (hvalid other (List.mem_append_right _ (List.mem_cons_of_mem _ hother)))
    have hle : other.range.stop ≤ byteLen before := hstart ▸ List.rel_of_pairwise_cons htail hother
    rw [List.append_assoc] at htext
    exact Option.isSome_of_eq_some ((getText_append_left hle).mp htext)
  obtain ⟨before', hfold, hlen⟩ := foldl_replaceRange_back htail.of_cons
    (edit.replacement ++ after') hearlier
  have hstart' : landingStart (later ++ edit :: earlier) edit.range = byteLen before' := by
    unfold landingStart
    rw [hbefore]
    omega
  have hstop' : landingStop (later ++ edit :: earlier) edit.range =
    byteLen before' + byteLen edit.replacement := by
    unfold landingStop
    rw [hfind, hstart']
  unfold landed
  rw [hstart', hstop', List.foldl_append, List.foldl_cons, hafter, replaceRange_cut hstart hstop,
    List.append_assoc before, hfold]
  exact getText_eq_some_iff.mpr ⟨before', after', by simp, rfl, rfl⟩

end ParadoxCode.Format

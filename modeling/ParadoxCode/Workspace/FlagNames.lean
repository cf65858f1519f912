import ParadoxCode.Hir.ScopeTransition
import ParadoxCode.Workspace.FlagWrites

/-!
# The names that writes produce

A write keeps the parameters of its name as they are spelled, and a run replaces each of them by a
text of its own. The view keeps of such a name what is before its first marker and what is after its
last one. Both of them are in every name that the write produces, and they do not overlap there.
-/

namespace ParadoxCode.Workspace

open Engine Engine.Store Format
open Index (FlagWrite)

/-! ## Rendered names -/

/-- What a name is when every parameter has a value, where a marker that is not part of a parameter
is kept. Nothing is said about the values, so that two uses of a parameter may differ here. -/
inductive Renders : Str → Str → Prop
  | nil : Renders [] []
  | keep (c : Char) {name out : Str} : Renders name out → Renders (c :: name) (c :: out)
  | hole (parameter value : Str) {name out : Str} :
    Renders name out → Renders ('$' :: parameter ++ '$' :: name) (value ++ out)

namespace Renders

variable {name out : Str}

theorem refl : ∀ name : Str, Renders name name
  | [] => nil
  | c :: name => keep c (refl name)

theorem prepend (text : Str) (h : Renders name out) : Renders (text ++ name) (text ++ out) := by
  induction text with
  | nil => exact h
  | cons c text ih => exact keep c ih

theorem lower (h : Renders name out) : Renders (toAsciiLowercase name) (toAsciiLowercase out) := by
  induction h with
  | nil => exact nil
  | keep c _ ih => exact keep c.toLower ih
  | hole parameter value _ ih =>
    have hmark : '$'.toLower = '$' := by decide
    have h := hole (toAsciiLowercase parameter) (toAsciiLowercase value) ih
    unfold toAsciiLowercase at h ⊢
    rw [List.map_append, List.map_append, List.map_cons, List.map_cons, hmark]
    exact h

/-- A name without markers is produced as it is. -/
theorem eq_of_not_mem (h : Renders name out) (hmark : '$' ∉ name) : out = name := by
  induction h with
  | nil => rfl
  | keep c _ ih => rw [ih fun hmem => hmark (List.mem_cons_of_mem c hmem)]
  | hole parameter value _ _ => exact absurd List.mem_cons_self hmark

/-- What is before the first marker stays in front. -/
theorem exists_of_append {front : Str} (hfront : '$' ∉ front) (h : Renders (front ++ name) out) :
    ∃ rest, out = front ++ rest ∧ Renders name rest := by
  induction front generalizing out with
  | nil => exact ⟨out, rfl, h⟩
  | cons c front ih =>
    rw [List.mem_cons, not_or] at hfront
    generalize hname : c :: front ++ name = whole at h
    cases h with
    | nil => cases hname
    | keep d hrest =>
      obtain ⟨rfl, rfl⟩ := List.cons.inj hname
      obtain ⟨rest, rfl, hrenders⟩ := ih hfront.2 hrest
      exact ⟨rest, rfl, hrenders⟩
    | hole parameter value _ => exact absurd (List.cons.inj hname).1.symm hfront.1

/-- What is after the last marker stays at the end. -/
theorem isSuffix {back : Str} (hback : '$' ∉ back) (h : Renders name out)
    (hsuffix : back <:+ name) : back <:+ out := by
  induction h with
  | nil => exact hsuffix
  | @keep c name out hrest ih =>
    rcases List.suffix_cons_iff.mp hsuffix with rfl | htail
    · rw [hrest.eq_of_not_mem fun hmem => hback (List.mem_cons_of_mem c hmem)]
    · exact (ih htail).trans (List.suffix_cons c out)
  | @hole parameter value name out _ ih =>
    have hclosed : '$' :: name <:+ '$' :: parameter ++ '$' :: name := List.suffix_append _ _
    refine (ih ?_).trans (List.suffix_append value out)
    -- the closing marker is not in the end of the name
    rcases List.suffix_or_suffix_of_suffix hsuffix hclosed with hinner | houter
    · rcases List.suffix_cons_iff.mp hinner with rfl | htail
      · exact absurd List.mem_cons_self hback
      · exact htail
    · exact absurd (houter.subset List.mem_cons_self) hback

end Renders

/-! ## Names in the view -/

theorem getLast?_isSuffix_intercalate (separator : Char) (first : Str) (segments : List Str) :
    (first :: segments).getLast?.getD [] <:+ [separator].intercalate (first :: segments) := by
  induction segments generalizing first with
  | nil => simp [List.intercalate]
  | cons second segments ih =>
    have hlast : (first :: second :: segments).getLast? = (second :: segments).getLast? := by
      rw [List.getLast?_cons_cons]
    have hrest : [separator].intercalate (first :: second :: segments) =
        first ++ [separator] ++ [separator].intercalate (second :: segments) := by
      simp [List.intercalate, List.intersperse]
    rw [hlast, hrest]
    exact (ih second).trans (List.suffix_append _ _)

/-- The text is the first segment, a separator and the rest, and the last segment is at its end. -/
theorem splitOn_ends {separator : Char} {text : Str} (h : separator ∈ text) :
    ∃ rest, text = (text.splitOn separator).head?.getD [] ++ separator :: rest ∧
      (text.splitOn separator).tail.getLast?.getD [] <:+ rest := by
  have htext : [separator].intercalate (text.splitOn separator) = text :=
    List.intercalate_splitOn separator
  cases hsegments : text.splitOn separator with
  | nil =>
    rw [hsegments] at htext
    subst htext
    cases h
  | cons front segments =>
    rw [hsegments] at htext
    cases segments with
    | nil =>
      -- a text of one segment has no separator
      have hfront : front = text := by simpa [List.intercalate] using htext
      have hseparator := Hir.not_mem_of_mem_splitOn
        (hsegments ▸ List.mem_cons_self : front ∈ text.splitOn separator)
      exact absurd (hfront ▸ h) hseparator
    | cons second segments =>
      refine ⟨[separator].intercalate (second :: segments), ?_, ?_⟩
      · simpa [List.intercalate, List.intersperse] using htext.symm
      · exact getLast?_isSuffix_intercalate separator second segments

/-- The lower-case names that an entry stands for. -/
def FlagEntry.Admits : FlagEntry → Str → Prop
  | .literal text, name => name = text
  | .pattern front back, name => ∃ middle, name = front ++ middle ++ back
  | .isOpen, _ => True

/-- The entry of a write stands for every name that the write produces. -/
theorem entryOf_admits {name out : Str} (h : Renders name out) :
    (entryOf name).Admits (toAsciiLowercase out) := by
  have hlower := h.lower
  unfold entryOf
  dsimp only
  generalize toAsciiLowercase name = written at hlower ⊢
  by_cases hmark : '$' ∈ written
  · rw [if_neg (not_not_intro hmark)]
    obtain ⟨rest, hwritten, hback⟩ := splitOn_ends hmark
    have hfront : '$' ∉ (written.splitOn '$').head?.getD [] := by
      cases hsegments : written.splitOn '$' with
      | nil => exact List.not_mem_nil
      | cons front segments => exact Hir.not_mem_of_mem_splitOn (hsegments ▸ List.mem_cons_self)
    have hlast : '$' ∉ (written.splitOn '$').tail.getLast?.getD [] := by
      cases hlast : (written.splitOn '$').tail.getLast? with
      | none => exact List.not_mem_nil
      | some back =>
        exact Hir.not_mem_of_mem_splitOn (List.mem_of_mem_tail (List.mem_of_getLast? hlast))
    split_ifs with hopen
    · trivial
    · rw [hwritten] at hlower
      obtain ⟨out', hout, hrest⟩ := hlower.exists_of_append hfront
      obtain ⟨middle, hmiddle⟩ := hrest.isSuffix hlast (hback.trans (List.suffix_cons '$' rest))
      exact ⟨middle, by rw [hout, ← hmiddle, List.append_assoc]⟩
  · rw [if_pos hmark]
    exact hlower.eq_of_not_mem hmark

/-- What the test of a pattern says. -/
theorem fits_iff {front back lowered : Str} :
    (byteLen front + byteLen back ≤ byteLen lowered ∧ front <+: lowered ∧ back <:+ lowered) ↔
      ∃ middle, lowered = front ++ middle ++ back := by
  constructor
  · rintro ⟨hlen, ⟨rest, rfl⟩, hback⟩
    rw [byteLen_append, Nat.add_le_add_iff_left] at hlen
    rcases List.suffix_or_suffix_of_suffix hback (List.suffix_append front rest) with
      ⟨middle, hinner⟩ | houter
    · exact ⟨middle, by rw [List.append_assoc, hinner]⟩
    · -- the end is not longer than what the front leaves
      obtain ⟨more, hmore⟩ := houter
      have hbytes : byteLen more + byteLen rest = byteLen back := by rw [← byteLen_append, hmore]
      cases more with
      | nil => exact ⟨[], by rw [List.append_nil, ← hmore, List.nil_append]⟩
      | cons c more =>
        have hpos := Char.utf8Size_pos c
        rw [byteLen_cons] at hbytes
        omega
  · rintro ⟨middle, rfl⟩
    refine ⟨?_, ⟨middle ++ back, (List.append_assoc _ _ _).symm⟩, List.suffix_append _ _⟩
    rw [byteLen_append, byteLen_append]
    omega

theorem FlagWriteIndex.membership_ne_unknown_iff {view : FlagWriteIndex} {member : Str} :
    view.membership member ≠ .unknown ↔
      ∃ entry, view.Has entry ∧ entry.Admits (toAsciiLowercase member) := by
  unfold membership
  dsimp only
  generalize toAsciiLowercase member = lowered
  split_ifs with hopen hliteral hpattern
  · exact iff_of_true (nofun) ⟨.isOpen, hopen, trivial⟩
  · exact iff_of_true (nofun) ⟨.literal lowered, hliteral, rfl⟩
  · obtain ⟨⟨front, back⟩, hmem, hfits⟩ := hpattern
    exact iff_of_true (nofun) ⟨.pattern front back, hmem, fits_iff.mp hfits⟩
  · refine iff_of_false (fun h => h rfl) ?_
    rintro ⟨entry, hhas, hadmits⟩
    cases entry with
    | literal text =>
      obtain rfl : lowered = text := hadmits
      exact hliteral hhas
    | pattern front back => exact hpattern ⟨(front, back), hhas, fits_iff.mpr hadmits⟩
    | isOpen => exact hopen hhas

/-! ## Names in the index -/

/-- A name is not called unwritten exactly if an entry of the shards stands for it. -/
theorem flagWriteMembership_ne_unknown_iff (shards : List FileIndexShard) (kind member : Str) :
    (WorkspaceIndex.fromShards shards).flagWriteMembership kind member ≠ .unknown ↔
      ∃ (fileId : Nat) (shard : FileIndexShard) (write : FlagWrite),
        (WorkspaceIndex.fromShards shards).shards[fileId]? = some shard ∧ write ∈ shard.flagWrites ∧
          toAsciiLowercase write.kind = toAsciiLowercase kind ∧
            (entryOf write.name).Admits (toAsciiLowercase member) := by
  have hview : (WorkspaceIndex.fromShards shards).flagWriteMembership kind member ≠ .unknown ↔
      ∃ entry, HasEntry (WorkspaceIndex.fromShards shards).flagWrites
        (toAsciiLowercase kind, entry) ∧ entry.Admits (toAsciiLowercase member) := by
    unfold WorkspaceIndex.flagWriteMembership WorkspaceIndex.flagWriteIndex HasEntry
    dsimp only
    cases (WorkspaceIndex.fromShards shards).flagWrites[toAsciiLowercase kind]? with
    | none => simp
    | some view => simp [FlagWriteIndex.membership_ne_unknown_iff]
  rw [hview, inStep_fromShards]
  simp only [hasEntry_flagWritesOf, Writes, recorded, Prod.mk.injEq]
  constructor
  · rintro ⟨entry, ⟨fileId, shard, hshard, write, hwrite, hkind, rfl⟩, hadmits⟩
    exact ⟨fileId, shard, write, hshard, hwrite, hkind.symm, hadmits⟩
  · rintro ⟨fileId, shard, write, hshard, hwrite, hkind, hadmits⟩
    exact ⟨_, ⟨fileId, shard, hshard, write, hwrite, hkind.symm, rfl⟩, hadmits⟩

/-- Every name that a write of the shards produces is reported as one that may be written, however
the kind and the name are capitalised. -/
theorem produced_written (shards : List FileIndexShard) {fileId : Nat} {shard : FileIndexShard}
    (hshard : (WorkspaceIndex.fromShards shards).shards[fileId]? = some shard) {write : FlagWrite}
    (hwrite : write ∈ shard.flagWrites) {produced kind member : Str}
    (hproduced : Renders write.name produced)
    (hkind : toAsciiLowercase kind = toAsciiLowercase write.kind)
    (hmember : toAsciiLowercase member = toAsciiLowercase produced) :
    (WorkspaceIndex.fromShards shards).flagWriteMembership kind member ≠ .unknown := by
  rw [flagWriteMembership_ne_unknown_iff]
  refine ⟨fileId, shard, write, hshard, hwrite, hkind.symm, ?_⟩
  rw [hmember]
  exact entryOf_admits hproduced

/-- A produced name that is no longer than what is kept of the write's name. -/
theorem produced_written_shortest :
    (WorkspaceIndex.fromShards [{ FileIndexShard.empty 1 with
      flagWrites := [⟨"country_flag".toList, "Dev_$kind$_$level$_dev".toList, ⟨0, 22, by decide⟩⟩]
        }]).flagWriteMembership
        "Country_Flag".toList "DEV___DEV".toList ≠ .unknown := by
  have hproduced : Renders "Dev_$kind$_$level$_dev".toList "Dev___dev".toList :=
    .prepend "Dev_".toList (.hole "kind".toList []
      (.keep '_' (.hole "level".toList [] (.refl "_dev".toList))))
  exact produced_written _ (show _ = some _ by rfl : (WorkspaceIndex.fromShards _).shards[1]? =
    some _) List.mem_cons_self hproduced (by decide) (by decide)

end ParadoxCode.Workspace

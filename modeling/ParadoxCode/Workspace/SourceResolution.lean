import ParadoxCode.Workspace.QueryCache

/-!
# Source resolution

`source_resolution.rs`: which of the scanned files and open documents take part. An open document
owns its file; the candidates of a logical path are ordered by the priority of their roots, and the
first one that is not hidden decides whether the others stay active.

A type of paths stands for `AbsPath`: its equality and order are those of the components.
-/

namespace ParadoxCode.Workspace.SourceResolution

open Rules (FileResolutionPolicy FileCategory)
open StableSort (sortByKey)

/-! ## The resolution -/

structure SourceRoot (Path : Type) where
  id : Nat
  path : Path
  order : Nat

structure SourceFile (Path : Type) where
  id : Nat
  rootId : Nat
  physicalPath : Path
  logicalPath : Str
  resolution : FileResolutionPolicy

structure Document (Path : Type) where
  source : DocumentSource
  path : Option Path

/-- What is asked of paths. -/
structure PathOperations (Path : Type) where
  /-- `AbsPath::normalize`. -/
  normalize : Path → Path
  /-- `starts_with`: the path, then the root. -/
  startsWith : Path → Path → Bool
  /-- `as_os_str().len()`. -/
  osLen : Path → Nat
  /-- `strip_prefix`, with `to_string_lossy`. -/
  stripPrefix : Path → Path → Option Str

/-- `ResolvedCandidate`. -/
structure ResolvedCandidate where
  logicalPath : Str
  fileId : Option Nat
  documentId : Option Str
  priority : Nat
  resolution : Option FileResolutionPolicy
  active : Bool
  deriving DecidableEq

/-- The candidates by logical path. -/
abbrev Candidates : Type := Std.ExtTreeMap Str (List ResolvedCandidate)

structure Resolution (Path : Type) where
  candidates : Candidates
  files : Finset Nat
  documents : Finset Str
  suppressed : Finset Str
  overlays : List (Str × Option Path)

/-- `split_once(':')` and a comparison without case. -/
def decoded (id : Str) : Bool :=
  decide (':' ∈ id) && Format.eqIgnoreAsciiCase (id.takeWhile (· != ':')) "pdcloc".toList

/-- `prefer_overlay_document`. -/
def preferOverlayDocument (current candidate : Str) : Bool :=
  match decoded current, decoded candidate with
  | false, true => true
  | true, false => false
  | _, _ => compare current candidate == .lt

/-- `vfs::root_priority`. -/
def rootPriority {Path : Type} (root : SourceRoot Path) : Nat := root.order

/-- `max_by_key`: the last of the greatest. -/
def maxByKey {α : Type} (key : α → Nat) : List α → Option α
  | [] => none
  | a :: rest =>
    match maxByKey key rest with
    | none => some a
    | some b => if key b < key a then some a else some b

/-- What an owner of a path outside of its file is. -/
inductive Located where
  | standalone
  | unnamed
  | candidate (candidate : ResolvedCandidate)

section Resolve

variable {Path : Type} [Ord Path] [Std.TransOrd Path] [Std.LawfulEqOrd Path]

/-- The state of a snapshot that the resolution reads. -/
structure AnalysisSnapshot (Path : Type) [Ord Path] where
  roots : List (SourceRoot Path)
  sourceFiles : Std.ExtTreeMap Nat (SourceFile Path)
  categories : List FileCategory
  documents : Std.ExtTreeMap Str (Document Path)

/-- The documents on the way to their owners. -/
structure Ownership (Path : Type) [Ord Path] where
  documents : Finset Str := ∅
  suppressed : Finset Str := ∅
  owners : Std.ExtTreeMap Path Str := ∅

/-- One open document: it takes its path over or is suppressed. -/
def own (state : Ownership Path) (entry : Str × Option Path) : Ownership Path :=
  match entry.2 with
  | none => { state with documents := insert entry.1 state.documents }
  | some path =>
    match state.owners[path]? with
    | none => { state with owners := state.owners.insert path entry.1 }
    | some owner =>
      if preferOverlayDocument owner entry.1 = false then
        { state with suppressed := insert entry.1 state.suppressed }
      else
        { state with
          suppressed := insert owner state.suppressed
          owners := state.owners.insert path entry.1 }

/-- `entry(logical_path).or_default().push(candidate)`. -/
def pushCandidate (candidates : Candidates) (candidate : ResolvedCandidate) : Candidates :=
  candidates.alter candidate.logicalPath fun list => some (list.getD [] ++ [candidate])

/-- Whether a candidate is a hidden file. -/
def isHidden (hiddenFiles : Finset Nat) (candidate : ResolvedCandidate) : Bool :=
  candidate.fileId.any fun id => decide (id ∈ hiddenFiles)

/-- The loop that activates: hidden candidates are passed over. -/
def activate (hiddenFiles : Finset Nat) (merge : Bool) : Bool → List ResolvedCandidate →
    List ResolvedCandidate
  | _, [] => []
  | winner, candidate :: rest =>
    if isHidden hiddenFiles candidate = true then candidate ::
      activate hiddenFiles merge winner rest
    else { candidate with active := merge || !winner } :: activate hiddenFiles merge true rest

/-- `sort_by_key` with `Reverse(priority)`. -/
def byPriority (candidates : List ResolvedCandidate) : List ResolvedCandidate :=
  sortByKey (fun candidate => OrderDual.toDual candidate.priority) candidates

/-- What `Merge` of the first candidate that is not hidden makes of the others. -/
def merges (hiddenFiles : Finset Nat) (candidates : List ResolvedCandidate) : Bool :=
  (candidates.find? fun candidate => !isHidden hiddenFiles candidate).any fun candidate =>
    candidate.resolution == some .merge

/-- Active candidates first, then by priority, documents before files. -/
def publishedKey (candidate : ResolvedCandidate) : Bool ×ₗ ℕᵒᵈ ×ₗ Bool :=
  toLex (!candidate.active, toLex (OrderDual.toDual candidate.priority,
    candidate.documentId.isNone))

/-- The candidates of a logical path as they are published. -/
def settle (hiddenFiles : Finset Nat) (candidates : List ResolvedCandidate) :
    List ResolvedCandidate :=
  let sorted := byPriority candidates
  sortByKey publishedKey (activate hiddenFiles (merges hiddenFiles sorted) false sorted)

variable (ops : PathOperations Path) (snapshot : AnalysisSnapshot Path)

/-- The open documents with their paths. -/
def AnalysisSnapshot.overlays : List (Str × Option Path) :=
  (snapshot.documents.toList.filter fun entry => decide (entry.2.source = .overlay)).map
    fun entry =>
    (entry.1, entry.2.path.map ops.normalize)

def AnalysisSnapshot.ownership : Ownership Path := (snapshot.overlays ops).foldl own {}

/-- `priorities.get(&file.root_id)`: the last root of an identity counts. -/
def AnalysisSnapshot.priority (rootId : Nat) : Nat :=
  ((snapshot.roots.reverse.find? fun root => root.id == rootId).map rootPriority).getD 0

def AnalysisSnapshot.fileCandidate (file : SourceFile Path) : ResolvedCandidate where
  logicalPath := file.logicalPath
  fileId := some file.id
  documentId := none
  priority := snapshot.priority file.rootId
  resolution := some file.resolution
  active := false

/-- The candidate of an owner, under the longest of its roots. -/
def AnalysisSnapshot.locate (path : Path) (id : Str) : Located :=
  match maxByKey (fun root => ops.osLen root.path)
      (snapshot.roots.filter fun root => ops.startsWith path root.path) with
  | none => .standalone
  | some root =>
    match (ops.stripPrefix path root.path).bind fun text =>
      (Engine.Store.LogicalPath.parse text).toOption with
    | none => .unnamed
    | some logical =>
      .candidate
        { logicalPath := logical
          fileId := none
          documentId := some id
          priority := rootPriority root
          resolution := some (((Rules.classify snapshot.categories logical).map (·.resolution)).getD
            .replaceByRelativePath)
          active := false }

/-- The files whose text is in an open document. -/
def AnalysisSnapshot.hiddenFiles : Finset Nat :=
  ((snapshot.sourceFiles.toList.filter fun entry =>
    (snapshot.ownership ops).owners.contains entry.2.physicalPath).map fun entry =>
      entry.2.id).toFinset

/-- The candidates in the order in which they are found. -/
def AnalysisSnapshot.found : List ResolvedCandidate :=
  (snapshot.sourceFiles.toList.map fun entry => snapshot.fileCandidate entry.2) ++
    (snapshot.ownership ops).owners.toList.filterMap fun entry =>
      match snapshot.locate ops entry.1 entry.2 with
      | .candidate candidate => some candidate
      | .standalone | .unnamed => none

/-- The owners outside of the roots. -/
def AnalysisSnapshot.standalone : List Str :=
  (snapshot.ownership ops).owners.toList.filterMap fun entry =>
    match snapshot.locate ops entry.1 entry.2 with
    | .standalone => some entry.2
    | .unnamed | .candidate _ => none

/-- A resolution that is not taken from a cache. -/
def AnalysisSnapshot.resolve : Resolution Path :=
  let ownership := snapshot.ownership ops
  let hiddenFiles := snapshot.hiddenFiles ops
  let candidates := ((snapshot.found ops).foldl pushCandidate ∅).map fun _ list =>
    settle hiddenFiles list
  let taking := (candidates.toList.flatMap Prod.snd).filter fun candidate =>
    !isHidden hiddenFiles candidate && candidate.active
  { candidates := candidates
    files := (taking.filterMap ResolvedCandidate.fileId).toFinset
    documents := ownership.documents ∪ (snapshot.standalone ops).toFinset ∪
      (taking.filterMap ResolvedCandidate.documentId).toFinset
    suppressed := ownership.suppressed
    overlays := snapshot.overlays ops }

/-- `source_resolution`, with what the cache of the snapshot has under its two keys. -/
def AnalysisSnapshot.sourceResolution [DecidableEq Path]
    (effective inputs : Option (Resolution Path)) : Resolution Path :=
  match effective with
  | some cached => cached
  | none =>
    match inputs with
    | none => snapshot.resolve ops
    | some cached => if cached.overlays = snapshot.overlays ops then cached else
        snapshot.resolve ops

end Resolve

/-! ## The owner of a path -/

theorem preferOverlayDocument_iff {current candidate : Str} :
    preferOverlayDocument current candidate = true ↔
      decoded current = false ∧ decoded candidate = true ∨
        decoded current = decoded candidate ∧ compare current candidate = .lt := by
  unfold preferOverlayDocument
  cases decoded current <;> cases decoded candidate <;> simp

theorem preferOverlayDocument_self (id : Str) : preferOverlayDocument id id = false := by
  rw [← Bool.not_eq_true, preferOverlayDocument_iff]
  rintro (⟨h, h'⟩ | ⟨-, h⟩)
  · rw [h] at h'
    cases h'
  · rw [Std.ReflOrd.compare_self] at h
    cases h

theorem preferOverlayDocument_trans {a b c : Str} (hab : preferOverlayDocument a b = true)
    (hbc : preferOverlayDocument b c = true) : preferOverlayDocument a c = true := by
  rw [preferOverlayDocument_iff] at hab hbc ⊢
  rcases hab with ⟨ha, hb⟩ | ⟨hdecoded, hlt⟩
  · rcases hbc with ⟨hb', -⟩ | ⟨hdecoded', -⟩
    · rw [hb] at hb'
      cases hb'
    · exact .inl ⟨ha, hdecoded'.symm.trans hb⟩
  · rcases hbc with ⟨hb, hc⟩ | ⟨hdecoded', hlt'⟩
    · exact .inl ⟨hdecoded.trans hb, hc⟩
    · exact .inr ⟨hdecoded.trans hdecoded', Std.TransCmp.lt_trans hlt hlt'⟩

section Owner

variable {Path : Type} [Ord Path] [Std.TransOrd Path] [Std.LawfulEqOrd Path] [DecidableEq Path]

/-- The owners behind the open documents that have been looked at. -/
structure Owned (done : List (Str × Option Path)) (state : Ownership Path) : Prop where
  owner : ∀ (path : Path) (id : Str), state.owners[path]? = some id →
    (id, some path) ∈ done ∧ ∀ other, (other, some path) ∈ done →
    preferOverlayDocument id other = false
  owned : ∀ (path : Path) (id : Str), (id, some path) ∈ done →
    ∃ owner, state.owners[path]? = some owner
  suppressed : ∀ id, id ∈ state.suppressed ↔
    ∃ path : Path, (id, some path) ∈ done ∧ state.owners[path]? ≠ some id
  documents : ∀ id, id ∈ state.documents ↔ (id, none) ∈ done

omit [Std.LawfulEqOrd Path] [DecidableEq Path] in
theorem owned_start : Owned ([] : List (Str × Option Path)) {} where
  owner path id h := by
    rw [Std.ExtTreeMap.getElem?_empty] at h
    cases h
  owned path id h := absurd h List.not_mem_nil
  suppressed id := iff_of_false (Finset.notMem_empty id) fun ⟨_, h, _⟩ => absurd h List.not_mem_nil
  documents id := iff_of_false (Finset.notMem_empty id) List.not_mem_nil

theorem getElem?_insert_owner {owners : Std.ExtTreeMap Path Str} (path other : Path) (id : Str) :
    (owners.insert path id)[other]? = if path = other then some id else owners[other]? := by
  rw [Std.ExtTreeMap.getElem?_insert]
  simp only [Std.compare_eq_iff_eq]

/-- A document that takes its path over, from the one that has it or from none. -/
theorem Owned.take {done : List (Str × Option Path)} {state : Ownership Path} (h : Owned done state)
    {id : Str} {path : Path} (hfresh : ∀ other, (id, other) ∉ done) {suppressed : Finset Str}
    (hsuppressed : ∀ other, other ∈ suppressed ↔
      other ∈ state.suppressed ∨ state.owners[path]? = some other)
    (hprefer : ∀ owner, state.owners[path]? = some owner → preferOverlayDocument owner id = true) :
    Owned (done ++ [(id, some path)])
      { state with suppressed := suppressed, owners := state.owners.insert path id } where
  owner known owner hknown := by
    dsimp only at hknown
    rw [getElem?_insert_owner] at hknown
    split_ifs at hknown with heq
    · obtain rfl := Option.some.inj hknown
      subst heq
      refine ⟨List.mem_append_right _ List.mem_cons_self, fun other hother => ?_⟩
      rcases List.mem_append.mp hother with hother | hother
      · obtain ⟨owner, howner⟩ := h.owned path other hother
        rw [← Bool.not_eq_true]
        intro hlater
        have hpast := (h.owner path owner howner).2 other hother
        rw [preferOverlayDocument_trans (hprefer owner howner) hlater] at hpast
        cases hpast
      · cases List.mem_singleton.mp hother
        exact preferOverlayDocument_self id
    · obtain ⟨hmem, hbest⟩ := h.owner known owner hknown
      refine ⟨List.mem_append_left _ hmem, fun other hother => ?_⟩
      rcases List.mem_append.mp hother with hother | hother
      · exact hbest other hother
      · cases List.mem_singleton.mp hother
        exact absurd rfl heq
  owned known other hother := by
    dsimp only
    rw [getElem?_insert_owner]
    split_ifs with heq
    · exact ⟨id, rfl⟩
    · rcases List.mem_append.mp hother with hother | hother
      · exact h.owned known other hother
      · cases List.mem_singleton.mp hother
        exact absurd rfl heq
  suppressed other := by
    rw [hsuppressed, h.suppressed]
    dsimp only
    constructor
    · rintro (⟨known, hmem, hne⟩ | howner)
      · refine ⟨known, List.mem_append_left _ hmem, ?_⟩
        rw [getElem?_insert_owner]
        split_ifs
        · rintro ⟨⟩
          exact hfresh _ hmem
        · exact hne
      · have hmem := (h.owner path other howner).1
        refine ⟨path, List.mem_append_left _ hmem, ?_⟩
        rw [getElem?_insert_owner, if_pos rfl]
        rintro ⟨⟩
        exact hfresh _ hmem
    · rintro ⟨known, hmem, hne⟩
      rw [getElem?_insert_owner] at hne
      rcases List.mem_append.mp hmem with hmem | hmem
      · split_ifs at hne with heq
        · subst heq
          by_cases howner : state.owners[path]? = some other
          · exact .inr howner
          · exact .inl ⟨path, hmem, howner⟩
        · exact .inl ⟨known, hmem, hne⟩
      · cases List.mem_singleton.mp hmem
        rw [if_pos rfl] at hne
        exact absurd rfl hne
  documents other := by
    rw [List.mem_append, h.documents]
    refine (or_iff_left fun hmem => ?_).symm
    cases List.mem_singleton.mp hmem

omit [Std.LawfulEqOrd Path] [DecidableEq Path] in
/-- A document that does not take its path over. -/
theorem Owned.suppress {done : List (Str × Option Path)} {state : Ownership Path}
    (h : Owned done state) {id owner : Str} {path : Path} (hfresh : ∀ other, (id, other) ∉ done)
    (howner : state.owners[path]? = some owner) (hprefer : preferOverlayDocument owner id = false) :
    Owned (done ++ [(id, some path)]) { state with suppressed := insert id state.suppressed } where
  owner known other hknown := by
    obtain ⟨hmem, hbest⟩ := h.owner known other hknown
    refine ⟨List.mem_append_left _ hmem, fun candidate hcandidate => ?_⟩
    rcases List.mem_append.mp hcandidate with hcandidate | hcandidate
    · exact hbest candidate hcandidate
    · cases List.mem_singleton.mp hcandidate
      obtain rfl := Option.some.inj (howner.symm.trans hknown)
      exact hprefer
  owned known other hother := by
    rcases List.mem_append.mp hother with hother | hother
    · exact h.owned known other hother
    · cases List.mem_singleton.mp hother
      exact ⟨owner, howner⟩
  suppressed other := by
    rw [Finset.mem_insert, h.suppressed]
    constructor
    · rintro (rfl | ⟨known, hmem, hne⟩)
      · refine ⟨path, List.mem_append_right _ List.mem_cons_self, ?_⟩
        rw [howner]
        rintro ⟨⟩
        exact hfresh _ (h.owner path owner howner).1
      · exact ⟨known, List.mem_append_left _ hmem, hne⟩
    · rintro ⟨known, hmem, hne⟩
      rcases List.mem_append.mp hmem with hmem | hmem
      · exact .inr ⟨known, hmem, hne⟩
      · cases List.mem_singleton.mp hmem
        exact .inl rfl
  documents other := by
    rw [List.mem_append, h.documents]
    refine (or_iff_left fun hmem => ?_).symm
    cases List.mem_singleton.mp hmem

theorem Owned.own {done : List (Str × Option Path)} {state : Ownership Path} (h : Owned done state)
    {entry : Str × Option Path} (hfresh : ∀ other, (entry.1, other) ∉ done) :
    Owned (done ++ [entry]) (own state entry) := by
  obtain ⟨id, path⟩ := entry
  cases path with
  | none =>
    have hold : ∀ (other : Str) (path : Path), (other, some path) ∈ done ++ [(id, none)] ↔
        (other, some path) ∈ done := by
      intro other path
      rw [List.mem_append]
      exact or_iff_left fun hmem => nomatch List.mem_singleton.mp hmem
    refine ⟨?_, ?_, ?_, ?_⟩
    · intro path owner howner
      obtain ⟨hmem, hbest⟩ := h.owner path owner howner
      exact ⟨(hold owner path).mpr hmem, fun other hother =>
        hbest other ((hold other path).mp hother)⟩
    · exact fun path other hother => h.owned path other ((hold other path).mp hother)
    · intro other
      refine (h.suppressed other).trans (exists_congr fun path => ?_)
      rw [hold]
      rfl
    · intro other
      show other ∈ insert id state.documents ↔ _
      rw [Finset.mem_insert, h.documents, List.mem_append, List.mem_singleton,
        Prod.mk.injEq, or_comm, and_iff_left rfl]
  | some path =>
    unfold SourceResolution.own
    dsimp only
    cases howner : state.owners[path]? with
    | none =>
      refine h.take hfresh (fun other => (or_iff_left ?_).symm) fun owner hsome => ?_
      · rw [howner]
        nofun
      · rw [howner] at hsome
        cases hsome
    | some owner =>
      dsimp only
      split_ifs with hprefer
      · exact h.suppress hfresh howner hprefer
      · refine h.take hfresh (fun other => ?_) fun known hknown => ?_
        · rw [howner, Finset.mem_insert, Option.some.injEq, or_comm, eq_comm]
        · obtain rfl := Option.some.inj (howner.symm.trans hknown)
          exact Bool.eq_true_of_not_eq_false hprefer

theorem Owned.foldl {done : List (Str × Option Path)} {state : Ownership Path}
    (h : Owned done state)
    {rest : List (Str × Option Path)} (hdistinct : ((done ++ rest).map Prod.fst).Nodup) :
    Owned (done ++ rest) (rest.foldl SourceResolution.own state) := by
  induction rest generalizing done state with
  | nil =>
    rw [List.append_nil]
    exact h
  | cons entry rest ih =>
    have hassoc : done ++ entry :: rest = (done ++ [entry]) ++ rest := by simp
    rw [hassoc] at hdistinct ⊢
    refine ih (h.own fun other hmem => ?_) hdistinct
    rw [List.map_append, List.map_append] at hdistinct
    have hpair := List.nodup_append.mp (List.Nodup.of_append_left hdistinct)
    exact hpair.2.2 entry.1 (List.mem_map.mpr ⟨_, hmem, rfl⟩) entry.1 List.mem_cons_self rfl

variable (ops : PathOperations Path) (snapshot : AnalysisSnapshot Path)

omit [Std.TransOrd Path] [Std.LawfulEqOrd Path] [DecidableEq Path] in
theorem nodup_overlays : ((snapshot.overlays ops).map Prod.fst).Nodup := by
  unfold AnalysisSnapshot.overlays
  rw [List.map_map]
  have hkeys : (snapshot.documents.toList.map Prod.fst).Nodup := by
    refine List.pairwise_map.mpr (snapshot.documents.distinct_keys_toList.imp fun h => ?_)
    exact fun heq => h (Std.compare_eq_iff_eq.mpr heq)
  exact hkeys.sublist (List.filter_sublist.map Prod.fst)

theorem owned_ownership : Owned (snapshot.overlays ops) (snapshot.ownership ops) :=
  owned_start.foldl (nodup_overlays ops snapshot)

omit [Std.TransOrd Path] [Std.LawfulEqOrd Path] [DecidableEq Path] in
/-- An open document is at one path. -/
theorem path_unique {id : Str} {a b : Option Path} (ha : (id, a) ∈ snapshot.overlays ops)
    (hb : (id, b) ∈ snapshot.overlays ops) : a = b :=
  congrArg Prod.snd (List.inj_on_of_nodup_map (nodup_overlays ops snapshot) ha hb rfl)

/-- The owner of a path is decoded if a document there is, and the greatest of its kind. -/
theorem owner_best {path : Path} {owner : Str}
    (h : (snapshot.ownership ops).owners[path]? = some owner)
    {id : Str} (hid : (id, some path) ∈ snapshot.overlays ops) :
    (decoded id = true → decoded owner = true) ∧
      (decoded id = decoded owner → compare owner id ≠ .lt) := by
  have hnot := ((owned_ownership ops snapshot).owner path owner h).2 id hid
  rw [← Bool.not_eq_true, preferOverlayDocument_iff, not_or] at hnot
  constructor
  · intro hdecoded
    by_contra howner
    exact hnot.1 ⟨Bool.eq_false_iff.mpr howner, hdecoded⟩
  · exact fun hdecoded hlt => hnot.2 ⟨hdecoded.symm, hlt⟩

end Owner

/-! ## The candidates of a logical path -/

/-- A candidate before it is activated. -/
def ResolvedCandidate.inactive (candidate : ResolvedCandidate) : ResolvedCandidate :=
  { candidate with active := false }

section Settle

variable (hiddenFiles : Finset Nat)

theorem activate_inactive (merge winner : Bool) (candidates : List ResolvedCandidate) :
    (activate hiddenFiles merge winner candidates).map ResolvedCandidate.inactive =
      candidates.map ResolvedCandidate.inactive := by
  induction candidates generalizing winner with
  | nil => rfl
  | cons candidate rest ih =>
    unfold activate
    split_ifs
    · rw [List.map_cons, List.map_cons, ih]
    · rw [List.map_cons, List.map_cons, ih]
      rfl

variable {candidates : List ResolvedCandidate}

/-- Hidden candidates stay inactive. -/
theorem activate_hidden {merge winner : Bool}
    (hinactive : ∀ candidate ∈ candidates, candidate.active = false) {candidate : ResolvedCandidate}
    (hmem : candidate ∈ activate hiddenFiles merge winner candidates)
    (hhidden : isHidden hiddenFiles candidate = true) : candidate.active = false := by
  induction candidates generalizing winner with
  | nil => exact absurd hmem List.not_mem_nil
  | cons first rest ih =>
    obtain ⟨hfirst, hrest⟩ := List.forall_mem_cons.mp hinactive
    unfold activate at hmem
    split_ifs at hmem with hskip
    · rcases List.mem_cons.mp hmem with rfl | hmem
      · exact hfirst
      · exact ih hrest hmem
    · rcases List.mem_cons.mp hmem with rfl | hmem
      · exact absurd hhidden hskip
      · exact ih hrest hmem

/-- Under `Merge` every candidate that is not hidden is active. -/
theorem activate_merge {winner : Bool} {candidate : ResolvedCandidate}
    (hmem : candidate ∈ activate hiddenFiles true winner candidates)
    (hshown : isHidden hiddenFiles candidate = false) : candidate.active = true := by
  induction candidates generalizing winner with
  | nil => exact absurd hmem List.not_mem_nil
  | cons first rest ih =>
    unfold activate at hmem
    split_ifs at hmem with hskip
    · rcases List.mem_cons.mp hmem with rfl | hmem
      · rw [hskip] at hshown
        cases hshown
      · exact ih hmem
    · rcases List.mem_cons.mp hmem with rfl | hmem
      · rfl
      · exact ih hmem

/-- Without `Merge` nothing behind the winner is active. -/
theorem activate_behind (hinactive : ∀ candidate ∈ candidates, candidate.active = false) :
    (activate hiddenFiles false true candidates).filter (·.active) = [] := by
  induction candidates with
  | nil => rfl
  | cons first rest ih =>
    obtain ⟨hfirst, hrest⟩ := List.forall_mem_cons.mp hinactive
    unfold activate
    split_ifs
    · rw [List.filter_cons_of_neg (by simp [hfirst]), ih hrest]
    · rw [List.filter_cons_of_neg (by simp), ih hrest]

/-- Without `Merge` the first candidate that is not hidden is the only active one. -/
theorem activate_winner
    (hinactive : ∀ candidate ∈ candidates, candidate.active = false) {first : ResolvedCandidate}
    (hfirst : (candidates.find? fun candidate => !isHidden hiddenFiles candidate) = some first) :
    (activate hiddenFiles false false candidates).filter (·.active) =
      [{ first with active := true }] := by
  induction candidates with
  | nil => cases hfirst
  | cons candidate rest ih =>
    obtain ⟨hcandidate, hrest⟩ := List.forall_mem_cons.mp hinactive
    unfold activate
    split_ifs with hskip
    · rw [List.find?_cons_of_neg (by simp [hskip])] at hfirst
      rw [List.filter_cons_of_neg (by simp [hcandidate]), ih hrest hfirst]
    · rw [List.find?_cons_of_pos (by simp [hskip])] at hfirst
      obtain rfl := Option.some.inj hfirst
      rw [List.filter_cons_of_pos (by rfl), activate_behind hiddenFiles hrest]
      rfl

/-- The first candidate that is not hidden is active. -/
theorem mem_activate {merge : Bool} {first : ResolvedCandidate}
    (hfirst : (candidates.find? fun candidate => !isHidden hiddenFiles candidate) = some first) :
    { first with active := true } ∈ activate hiddenFiles merge false candidates := by
  induction candidates with
  | nil => cases hfirst
  | cons candidate rest ih =>
    unfold activate
    split_ifs with hskip
    · rw [List.find?_cons_of_neg (by simp [hskip])] at hfirst
      exact List.mem_cons_of_mem _ (ih hfirst)
    · rw [List.find?_cons_of_pos (by simp [hskip])] at hfirst
      obtain rfl := Option.some.inj hfirst
      rw [Bool.not_false, Bool.or_true]
      exact List.mem_cons_self

/-- How the candidates of a logical path are published. -/
structure Settled (found published : List ResolvedCandidate) : Prop where
  same : (published.map ResolvedCandidate.inactive).Perm found
  hidden : ∀ candidate ∈ published, isHidden hiddenFiles candidate = true → candidate.active = false
  winner : ∀ candidate ∈ published, isHidden hiddenFiles candidate = false →
    ∃ winner ∈ published, isHidden hiddenFiles winner = false ∧
      (∀ other ∈ published, isHidden hiddenFiles other = false → other.priority ≤ winner.priority) ∧
      (winner.resolution ≠ some .merge → published.filter (·.active) = [winner]) ∧
      (winner.resolution = some .merge →
        ∀ other ∈ published, isHidden hiddenFiles other = false → other.active = true)

variable {hiddenFiles} {found : List ResolvedCandidate}

theorem inactive_of_inactive {candidate : ResolvedCandidate} (h : candidate.active = false) :
    candidate.inactive = candidate := by
  unfold ResolvedCandidate.inactive
  rw [← h]

theorem map_inactive (h : ∀ candidate ∈ found, candidate.active = false) :
    found.map ResolvedCandidate.inactive = found :=
  (List.map_congr_left fun candidate hcandidate => inactive_of_inactive
    (h candidate hcandidate)).trans (List.map_id found)

/-- A candidate that comes first is of the greatest priority. -/
theorem priority_le_of_find {first other : ResolvedCandidate}
    (hfirst : ((byPriority found).find? fun candidate => !isHidden hiddenFiles candidate) =
      some first)
    (hother : other ∈ byPriority found) (hshown : isHidden hiddenFiles other = false) :
    other.priority ≤ first.priority := by
  obtain ⟨-, before, after, hsplit, hbefore⟩ := List.find?_eq_some_iff_append.mp hfirst
  have hsorted : (byPriority found).Pairwise fun a b =>
      OrderDual.toDual a.priority ≤ OrderDual.toDual b.priority :=
        StableSort.pairwise_sortByKey _ found
  rw [hsplit] at hother hsorted
  rcases List.mem_append.mp hother with hother | hother
  · have hhidden := hbefore other hother
    rw [hshown] at hhidden
    cases hhidden
  · rcases List.mem_cons.mp hother with rfl | hother
    · exact le_rfl
    · exact (List.pairwise_cons.mp (List.pairwise_append.mp hsorted).2.1).1 other hother

/-- What is published of candidates that are found. -/
theorem settled_settle (h : ∀ candidate ∈ found, candidate.active = false) :
    Settled hiddenFiles found (settle hiddenFiles found) := by
  have hperm : (byPriority found).Perm found := StableSort.perm_sortByKey _ found
  have hinactive : ∀ candidate ∈ byPriority found, candidate.active = false :=
    fun candidate hcandidate => h candidate (hperm.mem_iff.mp hcandidate)
  generalize hmerge : merges hiddenFiles (byPriority found) = merge
  have hsettle : settle hiddenFiles found =
      sortByKey publishedKey (activate hiddenFiles merge false (byPriority found)) := by
    rw [← hmerge]
    rfl
  have hpublished : (settle hiddenFiles found).Perm
    (activate hiddenFiles merge false (byPriority found)) := by
    rw [hsettle]
    exact StableSort.perm_sortByKey _ _
  have hback : ∀ candidate ∈ settle hiddenFiles found, candidate.inactive ∈ byPriority found := by
    intro candidate hcandidate
    rw [← map_inactive hinactive, ← activate_inactive hiddenFiles merge false]
    exact List.mem_map_of_mem (hpublished.mem_iff.mp hcandidate)
  refine ⟨?_, ?_, ?_⟩
  · have hmap := hpublished.map ResolvedCandidate.inactive
    rw [activate_inactive, map_inactive hinactive] at hmap
    exact hmap.trans hperm
  · intro candidate hcandidate hhidden
    exact activate_hidden hiddenFiles hinactive (hpublished.mem_iff.mp hcandidate) hhidden
  · intro candidate hcandidate hshown
    cases hfirst : (byPriority found).find? fun candidate => !isHidden hiddenFiles candidate with
    | none =>
      have hnone := List.find?_eq_none.mp hfirst _ (hback candidate hcandidate)
      rw [show isHidden hiddenFiles candidate.inactive = false from hshown] at hnone
      exact absurd rfl hnone
    | some first =>
      have hshownFirst : isHidden hiddenFiles first = false := by
        have hsome := List.find?_some hfirst
        rwa [Bool.not_eq_true'] at hsome
      have hmergeFirst : merge = (first.resolution == some .merge) := by
        rw [← hmerge]
        unfold merges
        rw [hfirst]
        rfl
      refine ⟨{ first with active := true }, hpublished.mem_iff.mpr
        (mem_activate hiddenFiles hfirst), hshownFirst, fun other hother hotherShown => ?_,
        fun hpolicy => ?_, fun hpolicy other hother => ?_⟩
      · have hle : other.inactive.priority ≤ first.priority :=
          priority_le_of_find hfirst (hback other hother) hotherShown
        exact hle
      · rw [hsettle, StableSort.filter_sortByKey, hmergeFirst, beq_false_of_ne hpolicy,
          activate_winner hiddenFiles hinactive hfirst]
        rfl
      · rw [hmergeFirst, show first.resolution = some .merge from hpolicy] at hpublished
        exact activate_merge hiddenFiles (hpublished.mem_iff.mp hother)

end Settle

/-! ## The winners -/

theorem foldl_pushCandidate (found : List ResolvedCandidate) (candidates : Candidates)
    (path : Str) :
    (found.foldl pushCandidate candidates)[path]?.getD [] =
      candidates[path]?.getD [] ++ found.filter fun candidate => candidate.logicalPath = path := by
  induction found generalizing candidates with
  | nil => simp
  | cons candidate rest ih =>
    rw [List.foldl_cons, ih]
    have hpush : (pushCandidate candidates candidate)[path]? =
        if candidate.logicalPath = path then some (candidates[path]?.getD [] ++ [candidate])
        else candidates[path]? := by
      unfold pushCandidate
      rw [Std.ExtTreeMap.getElem?_alter]
      simp only [Std.compare_eq_iff_eq]
      split_ifs with hpath
      · rw [hpath]
      · rfl
    rw [hpush]
    by_cases hpath : candidate.logicalPath = path
    · rw [if_pos hpath, List.filter_cons_of_pos (by simpa using hpath)]
      simp
    · rw [if_neg hpath, List.filter_cons_of_neg (by simpa using hpath)]

section Resolved

variable {Path : Type} [Ord Path] [Std.TransOrd Path] [Std.LawfulEqOrd Path]
  (ops : PathOperations Path) (snapshot : AnalysisSnapshot Path)

omit [Std.TransOrd Path] [Std.LawfulEqOrd Path] in
theorem locate_candidate {path : Path} {id : Str} {candidate : ResolvedCandidate}
    (h : snapshot.locate ops path id = .candidate candidate) :
    candidate.active = false ∧ candidate.documentId = some id := by
  unfold AnalysisSnapshot.locate at h
  split at h
  · cases h
  · split at h
    · cases h
    · cases h
      exact ⟨rfl, rfl⟩

/-- A candidate is of a file or of an owner. -/
theorem mem_found {candidate : ResolvedCandidate} (h : candidate ∈ snapshot.found ops) :
    candidate.active = false ∧ ∀ id, candidate.documentId = some id →
      ∃ path : Path, (snapshot.ownership ops).owners[path]? = some id := by
  rcases List.mem_append.mp h with h | h
  · obtain ⟨entry, -, rfl⟩ := List.mem_map.mp h
    exact ⟨rfl, nofun⟩
  · obtain ⟨⟨path, owner⟩, howner, hlocate⟩ := List.mem_filterMap.mp h
    dsimp only at hlocate
    split at hlocate
    next located hcandidate =>
      obtain rfl := Option.some.inj hlocate
      obtain ⟨hinactive, hid⟩ := locate_candidate ops snapshot hcandidate
      refine ⟨hinactive, fun id hsome => ⟨path, ?_⟩⟩
      rw [← hsome, hid]
      exact Std.ExtTreeMap.mem_toList_iff_getElem?_eq_some.mp howner
    · cases hlocate
    · cases hlocate

/-- Everything that is found of a logical path is published under it. -/
theorem settled_resolve {path : Str} {published : List ResolvedCandidate}
    (h : (snapshot.resolve ops).candidates[path]? = some published) :
    Settled (snapshot.hiddenFiles ops)
      ((snapshot.found ops).filter fun candidate => candidate.logicalPath = path) published := by
  have hfold := foldl_pushCandidate (snapshot.found ops) ∅ path
  rw [Std.ExtTreeMap.getElem?_empty, Option.getD_none, List.nil_append] at hfold
  unfold AnalysisSnapshot.resolve at h
  dsimp only at h
  rw [Std.ExtTreeMap.getElem?_map] at h
  obtain ⟨found, hfound, rfl⟩ := Option.map_eq_some_iff.mp h
  rw [hfound, Option.getD_some] at hfold
  rw [hfold]
  refine settled_settle fun candidate hcandidate => ?_
  exact (mem_found ops snapshot (List.mem_of_mem_filter hcandidate)).1

/-- The candidates that take part. -/
theorem mem_taking (candidate : ResolvedCandidate) :
    candidate ∈ ((snapshot.resolve ops).candidates.toList.flatMap Prod.snd).filter (fun candidate =>
        !isHidden (snapshot.hiddenFiles ops) candidate && candidate.active) ↔
      ∃ (path : Str) (published : List ResolvedCandidate),
        (snapshot.resolve ops).candidates[path]? = some published ∧ candidate ∈ published ∧
          candidate.active = true := by
  rw [List.mem_filter, List.mem_flatMap, Bool.and_eq_true, Bool.not_eq_true']
  constructor
  · rintro ⟨⟨⟨path, published⟩, hentry, hmem⟩, -, hactive⟩
    exact ⟨path, published, Std.ExtTreeMap.mem_toList_iff_getElem?_eq_some.mp hentry, hmem, hactive⟩
  · rintro ⟨path, published, hpublished, hmem, hactive⟩
    refine ⟨⟨(path, published), Std.ExtTreeMap.mem_toList_iff_getElem?_eq_some.mpr hpublished,
      hmem⟩, ?_, hactive⟩
    by_contra hhidden
    have hinactive := (settled_resolve ops snapshot hpublished).hidden candidate hmem
      (Bool.eq_true_of_not_eq_false hhidden)
    rw [hactive] at hinactive
    cases hinactive

theorem mem_files {id : Nat} : id ∈ (snapshot.resolve ops).files ↔
    ∃ (path : Str) (published : List ResolvedCandidate),
      (snapshot.resolve ops).candidates[path]? = some published ∧
        ∃ candidate ∈ published, candidate.active = true ∧ candidate.fileId = some id := by
  have htaking := mem_taking ops snapshot
  unfold AnalysisSnapshot.resolve at htaking ⊢
  dsimp only at htaking ⊢
  rw [List.mem_toFinset, List.mem_filterMap]
  constructor
  · rintro ⟨candidate, hcandidate, hid⟩
    obtain ⟨path, published, hpublished, hmem, hactive⟩ := (htaking candidate).mp hcandidate
    exact ⟨path, published, hpublished, candidate, hmem, hactive, hid⟩
  · rintro ⟨path, published, hpublished, candidate, hmem, hactive, hid⟩
    exact ⟨candidate, (htaking candidate).mpr ⟨path, published, hpublished, hmem, hactive⟩, hid⟩

variable [DecidableEq Path]

/-- A document that takes part has no path or owns one. -/
theorem owner_of_mem_documents {id : Str} (h : id ∈ (snapshot.resolve ops).documents) :
    (id, none) ∈ snapshot.overlays ops ∨
      ∃ path : Path, (snapshot.ownership ops).owners[path]? = some id := by
  have htaking := mem_taking ops snapshot
  have hsettled := @settled_resolve Path _ _ _ ops snapshot
  unfold AnalysisSnapshot.resolve at h htaking hsettled
  dsimp only at h htaking hsettled
  rw [Finset.mem_union, Finset.mem_union, List.mem_toFinset, List.mem_toFinset,
    List.mem_filterMap] at h
  rcases h with (h | h) | ⟨candidate, hcandidate, hid⟩
  · exact .inl (((owned_ownership ops snapshot).documents id).mp h)
  · obtain ⟨⟨path, owner⟩, howner, hlocate⟩ := List.mem_filterMap.mp h
    refine .inr ⟨path, ?_⟩
    dsimp only at hlocate
    split at hlocate
    · obtain rfl := Option.some.inj hlocate
      exact Std.ExtTreeMap.mem_toList_iff_getElem?_eq_some.mp howner
    · cases hlocate
    · cases hlocate
  · obtain ⟨path, published, hpublished, hmem, -⟩ := (htaking candidate).mp hcandidate
    have hback := (hsettled hpublished).same.mem_iff.mp (List.mem_map_of_mem hmem)
    exact .inr ((mem_found ops snapshot (List.mem_of_mem_filter hback)).2 id hid)

theorem mem_hiddenFiles {id : Nat} : id ∈ snapshot.hiddenFiles ops ↔
    ∃ (key : Nat) (file : SourceFile Path), snapshot.sourceFiles[key]? = some file ∧ file.id = id ∧
      ∃ document, (document, some file.physicalPath) ∈ snapshot.overlays ops := by
  have howned := owned_ownership ops snapshot
  unfold AnalysisSnapshot.hiddenFiles
  rw [List.mem_toFinset, List.mem_map]
  constructor
  · rintro ⟨⟨key, file⟩, hentry, rfl⟩
    obtain ⟨hfile, hcontains⟩ := List.mem_filter.mp hentry
    obtain ⟨owner, howner⟩ := Option.isSome_iff_exists.mp
      ((Std.ExtTreeMap.isSome_getElem?_eq_contains).trans hcontains)
    exact ⟨key, file, Std.ExtTreeMap.mem_toList_iff_getElem?_eq_some.mp hfile, rfl, owner,
      (howned.owner file.physicalPath owner howner).1⟩
  · rintro ⟨key, file, hfile, rfl, document, hdocument⟩
    obtain ⟨owner, howner⟩ := howned.owned file.physicalPath document hdocument
    refine ⟨(key, file), List.mem_filter.mpr
      ⟨Std.ExtTreeMap.mem_toList_iff_getElem?_eq_some.mpr hfile, ?_⟩, rfl⟩
    rw [← Std.ExtTreeMap.isSome_getElem?_eq_contains, howner]
    rfl

omit [Std.LawfulEqOrd Path] [DecidableEq Path] in
/-- A resolution is determined by the open documents and what changes with the index. -/
theorem resolve_congr {other : AnalysisSnapshot Path} (hroots : other.roots = snapshot.roots)
    (hfiles : other.sourceFiles = snapshot.sourceFiles)
    (hcategories : other.categories = snapshot.categories)
    (hoverlays : other.overlays ops = snapshot.overlays ops) :
    other.resolve ops = snapshot.resolve ops := by
  have howners : other.ownership ops = snapshot.ownership ops := by
    unfold AnalysisSnapshot.ownership
    rw [hoverlays]
  unfold AnalysisSnapshot.resolve AnalysisSnapshot.found AnalysisSnapshot.standalone
    AnalysisSnapshot.hiddenFiles AnalysisSnapshot.fileCandidate AnalysisSnapshot.priority
    AnalysisSnapshot.locate
  rw [howners, hoverlays, hroots, hfiles, hcategories]

/-- Who owns the path of an open document. -/
structure OwnedBy (id owner : Str) (path : Path) : Prop where
  mem : (owner, some path) ∈ snapshot.overlays ops
  decoded : decoded id = true → decoded owner = true
  greatest : SourceResolution.decoded id = SourceResolution.decoded owner → compare owner id ≠ .lt
  suppressed : id ∈ (snapshot.resolve ops).suppressed ↔ id ≠ owner
  documents : id ∈ (snapshot.resolve ops).documents → id = owner

/-- A path has one owner, whichever of its documents asks. -/
theorem exists_owner {path : Path} {id : Str} (hid : (id, some path) ∈ snapshot.overlays ops) :
    ∃ owner, (snapshot.ownership ops).owners[path]? = some owner ∧
      OwnedBy ops snapshot id owner path := by
  have howned := owned_ownership ops snapshot
  obtain ⟨owner, howner⟩ := howned.owned path id hid
  obtain ⟨hdecoded, hgreatest⟩ := owner_best ops snapshot howner hid
  refine ⟨owner, howner, (howned.owner path owner howner).1, hdecoded, hgreatest, ?_,
    fun hmem => ?_⟩
  · refine (howned.suppressed id).trans ⟨?_, fun hne => ⟨path, hid, ?_⟩⟩
    · rintro ⟨other, hother, hne⟩ rfl
      obtain rfl := Option.some.inj (path_unique ops snapshot hid hother)
      exact hne howner
    · rw [howner]
      exact fun heq => hne (Option.some.inj heq).symm
  · rcases owner_of_mem_documents ops snapshot hmem with hnone | ⟨other, hother⟩
    · cases path_unique ops snapshot hid hnone
    · obtain rfl := Option.some.inj (path_unique ops snapshot hid (howned.owner other id hother).1)
      exact Option.some.inj (hother.symm.trans howner)

end Resolved

/-- Paths by number, all below every root, with one logical path. -/
def numbered : PathOperations Nat where
  normalize path := path
  startsWith _ _ := true
  osLen _ := 0
  stripPrefix _ _ := some "events/a.txt".toList

/-- A file of the game, one of a mod in its place, and the raw and the decoded text of a third
file. -/
def shadowed : AnalysisSnapshot Nat where
  roots := [⟨0, 0, 0⟩, ⟨1, 1, 1⟩]
  sourceFiles :=
    ((Std.ExtTreeMap.empty.insert 1 ⟨1, 0, 10, "common/b.txt".toList,
    .replaceByRelativePath⟩).insert 2 ⟨2, 1, 11, "common/b.txt".toList,
    .replaceByRelativePath⟩).insert 3 ⟨3, 0, 12, "events/a.txt".toList, .merge⟩
  categories := []
  documents := (Std.ExtTreeMap.empty.insert "file:///a".toList ⟨.overlay, some 12⟩).insert
    "pdcloc:///a".toList ⟨.overlay, some 12⟩

end ParadoxCode.Workspace.SourceResolution

import ParadoxCode.Parser.ScriptTwin
import ParadoxCode.Parser.ScriptValid

/-!
# What a guard sees of a parse

`checks source` are the questions the ordinary parse of `source` would put to a guard. Any guarded
parse puts the same questions up to the first one its guard denies (`feed`): if there is none, its
result is the ordinary parse, and if there is one, at some offset, its tokens agree with the
ordinary ones up to that offset (`guarded_spec`).
-/

namespace ParadoxCode.Script

open ParadoxCode.Parser
open Run (Sim)

/-- What a guard is asked about. -/
structure Check where
  offset : Nat
  nodes : Nat
  depth : Nat
  deriving DecidableEq

/-- The guard that allows everything and writes down what it is asked. -/
def record : Guard (List Check) := fun log offset nodes depth =>
  (true, log ++ [⟨offset, nodes, depth⟩])

/-- The questions of an ordinary parse, in order. -/
def checks (source : List Char) : List Check :=
  ((parseDocument (some record) source (Parser.new [])).map fun result =>
    result.2.guardState).getD []

/-- How deep the ordinary parse nests its containers. -/
def nesting (source : List Char) : Nat := ((checks source).map Check.depth).foldr max 0

theorem depth_le_nesting {source : List Char} {check : Check} (h : check ∈ checks source) :
    check.depth ≤ nesting source := by
  unfold nesting
  generalize checks source = log at h
  induction log with
  | nil => cases h
  | cons first log ih =>
    rw [List.map_cons, List.foldr_cons]
    rcases List.mem_cons.mp h with rfl | h
    · exact Nat.le_max_left _ _
    · exact Nat.le_trans (ih h) (Nat.le_max_right _ _)

/-- The state of a guard after some questions: it goes on, or it has denied one of them. -/
inductive Verdict (σ : Type) where
  | going (state : σ)
  | denied (state : σ) (check : Check)

/-- One more question. -/
def Verdict.ask {σ : Type} (guard : Guard σ) : Verdict σ → Check → Verdict σ
  | .going state, check =>
    let (goOn, state) := guard state check.offset check.nodes check.depth
    if goOn then .going state else .denied state check
  | .denied state check, _ => .denied state check

/-- Puts some questions to a guard, up to the first one it denies. -/
def feed {σ : Type} (guard : Guard σ) (state : σ) (checks : List Check) : Verdict σ :=
  checks.foldl (Verdict.ask guard) (.going state)

section

variable {σ : Type} {guard : Guard σ}

theorem foldl_denied (state : σ) (check : Check) (more : List Check) :
    more.foldl (Verdict.ask guard) (.denied state check) = .denied state check := by
  induction more with
  | nil => rfl
  | cons _ more ih => exact ih

variable {state : σ} {checks : List Check}

theorem feed_denied {state' : σ} {check : Check}
    (h : feed guard state checks = .denied state' check) (more : List Check) :
    feed guard state (checks ++ more) = .denied state' check := by
  unfold feed at *
  rw [List.foldl_append, h, foldl_denied]

theorem feed_concat {state' : σ} (h : feed guard state checks = .going state') (check : Check) :
    feed guard state (checks ++ [check]) = Verdict.ask guard (.going state') check := by
  unfold feed at *
  rw [List.foldl_append, h]
  rfl

theorem ask_of_true {offset nodes depth : Nat} (h : (guard state offset nodes depth).1 = true) :
    Verdict.ask guard (.going state) ⟨offset, nodes, depth⟩ =
      .going (guard state offset nodes depth).2 := if_pos h

theorem ask_of_false {offset nodes depth : Nat} (h : (guard state offset nodes depth).1 = false) :
    Verdict.ask guard (.going state) ⟨offset, nodes, depth⟩ =
      .denied (guard state offset nodes depth).2 ⟨offset, nodes, depth⟩ :=
  if_neg (by rw [h]; exact Bool.false_ne_true)

/-- A denied question is one of those that were put. -/
theorem mem_of_denied {state' : σ} {check : Check}
    (h : feed guard state checks = .denied state' check) : check ∈ checks := by
  induction checks generalizing state with
  | nil => cases h
  | cons first checks ih =>
    change checks.foldl (Verdict.ask guard) (Verdict.ask guard (.going state) first) = _ at h
    cases hask : Verdict.ask guard (.going state) first with
    | going state₁ =>
      rw [hask] at h
      exact List.mem_cons_of_mem _ (ih h)
    | denied state₁ check₁ =>
      rw [hask, foldl_denied] at h
      unfold Verdict.ask at hask
      dsimp only at hask
      split at hask
      · cases hask
      · cases hask
        cases h
        exact List.mem_cons_self

/-- What holds of the guard's state as long as it allows everything. -/
theorem feed_going {P : σ → Prop}
    (hstep : ∀ state offset nodes depth, P state → (guard state offset nodes depth).1 = true →
      P (guard state offset nodes depth).2) {start : σ} (hstart : P start)
    (h : feed guard start checks = .going state) : P state := by
  induction checks generalizing start with
  | nil =>
    cases h
    exact hstart
  | cons first checks ih =>
    change checks.foldl (Verdict.ask guard) (Verdict.ask guard (.going start) first) = _ at h
    cases hgo : (guard start first.offset first.nodes first.depth).1 with
    | true =>
      rw [ask_of_true hgo] at h
      exact ih (hstep _ _ _ _ hstart hgo) h
    | false =>
      rw [ask_of_false hgo, foldl_denied] at h
      cases h

/-- A denial comes from a state in which the guard had allowed everything before. -/
theorem feed_last {P : σ → Prop}
    (hstep : ∀ state offset nodes depth, P state → (guard state offset nodes depth).1 = true →
      P (guard state offset nodes depth).2) {start : σ} {check : Check}
    (hstart : P start) (h : feed guard start checks = .denied state check) :
    ∃ last, P last ∧ guard last check.offset check.nodes check.depth = (false, state) := by
  induction checks generalizing start with
  | nil => cases h
  | cons first checks ih =>
    change checks.foldl (Verdict.ask guard) (Verdict.ask guard (.going start) first) = _ at h
    cases hgo : (guard start first.offset first.nodes first.depth).1 with
    | true =>
      rw [ask_of_true hgo] at h
      exact ih (hstep _ _ _ _ hstart hgo) h
    | false =>
      rw [ask_of_false hgo, foldl_denied] at h
      cases h
      exact ⟨start, hstart, Prod.ext hgo rfl⟩

end

/-! ## Units of work -/

section

variable {σ : Type} {source : List Char}

/-- Nothing is known of the guard's state. -/
def Watch.free (σ : Type) : Watch σ := ⟨⟨fun _ _ => True, fun _ => trivial, fun _ _ => trivial⟩,
  fun _ _ => trivial⟩

/-- The record only grows, by questions about the numbers of nodes in between. -/
def Watch.record : Watch (List Check) where
  Step := fun s t => s.2 ≤ t.2 ∧ ∃ more, t.1 = s.1 ++ more ∧
    ∀ check ∈ more, s.2 ≤ check.nodes ∧ check.nodes ≤ t.2
  refl := fun s => ⟨le_rfl, [], (List.append_nil _).symm, by simp⟩
  trans := by
    rintro s t u ⟨hle, more, hmore, hbound⟩ ⟨hle', more', hmore', hbound'⟩
    refine ⟨Nat.le_trans hle hle', more ++ more', by rw [hmore', hmore, List.append_assoc], ?_⟩
    intro check hc
    rcases List.mem_append.mp hc with hc | hc
    · exact ⟨(hbound check hc).1, Nat.le_trans (hbound check hc).2 hle'⟩
    · exact ⟨Nat.le_trans hle (hbound' check hc).1, (hbound' check hc).2⟩
  node := fun state nodes => ⟨Nat.le_succ _, [], (List.append_nil _).symm, by simp⟩

theorem checkWork_moves {guard : Option (Guard σ)} {G : Watch σ}
    (hguard : ∀ g ∈ guard, ∀ state offset nodes depth,
      G.Step (state, nodes) ((g state offset nodes depth).2, nodes)) (force : Bool) :
    Run.Moves (frame source G).Step (checkWork guard source force) := by
  intro p goOn p' h
  unfold checkWork at h
  cases hs : p.stopped with
  | true =>
    rw [hs, if_pos rfl] at h
    cases h
    exact Moved.refl p
  | false =>
    rw [hs, if_neg Bool.false_ne_true] at h
    dsimp only at h
    cases guard with
    | none =>
      cases h
      exact Moved.of_eq rfl rfl le_rfl rfl hs.symm rfl
    | some g =>
      have hstep := hguard g rfl p.guardState p.position p.nodes p.depth
      dsimp only at h
      split_ifs at h with hforce hgo
      · cases h
        exact ⟨hstep, le_rfl, ⟨[], (List.append_nil _).symm, by simp⟩,
          fun h => absurd h (by rw [hs]; decide), ⟨[], (List.append_nil _).symm, by simp⟩⟩
      · cases h
        refine ⟨hstep, ?_, ⟨[], (List.append_nil _).symm, by simp⟩,
          fun h => absurd h (by rw [hs]; decide), ⟨[], (List.append_nil _).symm, by simp⟩⟩
        unfold cursor
        dsimp only
        omega
      · cases h
        exact Moved.of_eq rfl rfl le_rfl rfl hs.symm rfl

theorem checkWork_moves_free (guard : Option (Guard σ)) (force : Bool) :
    Run.Moves (frame source (Watch.free σ)).Step (checkWork guard source force) :=
  checkWork_moves (fun _ _ _ _ _ _ => trivial) force

theorem checkWork_moves_record (force : Bool) :
    Run.Moves (frame source Watch.record).Step (checkWork (some record) source force) := by
  refine checkWork_moves ?_ force
  rintro g ⟨⟩ state offset nodes depth
  refine ⟨le_rfl, [⟨offset, nodes, depth⟩], rfl, fun check hc => ?_⟩
  rw [List.mem_singleton.mp hc]
  exact ⟨le_rfl, le_rfl⟩

/-- Recording changes nothing: the link of a recorded and an ordinary parse. -/
abbrev recordLink (source : List Char) : Run.Link (Parser (List Check)) (Parser Unit) :=
  twin (fun _ _ => True) source Watch.record (Watch.free Unit) (fun _ _ => False)
    (fun h _ _ => h)

theorem checkWork_record (force : Bool) :
    Sim (recordLink source) (checkWork (some record) source force)
      (checkWork none source force) := by
  refine ⟨fun p q a p' b q' h hp hq => Or.inl ?_, checkWork_moves_record force,
    checkWork_moves_free none force⟩
  unfold checkWork at hp hq
  rw [h.running, if_neg Bool.false_ne_true] at hp
  rw [h.running', if_neg Bool.false_ne_true] at hq
  dsimp only at hp hq
  cases hq
  split_ifs at hp with hforce hgo
  · cases hp
    exact ⟨rfl,
      { h with guard := trivial, work := by rw [h.work], running := rfl, running' := rfl }⟩
  · exact absurd rfl hgo
  · cases hp
    exact ⟨rfl,
      { h with guard := trivial, work := by rw [h.work], running := rfl, running' := rfl }⟩

/-! ## The guarded and the recorded parse -/

/-- Two lists of tokens are the same up to an offset: both go on with tokens that end behind it. -/
def AgreeTo (offset : Nat) (tokens tokens' : List SyntaxToken) : Prop :=
  ∃ common later later', tokens = common ++ later ∧ tokens' = common ++ later' ∧
    ∀ token ∈ later ++ later', min offset u32Max ≤ token.range.stop

theorem AgreeTo.more {offset : Nat} {tokens tokens' more more' : List SyntaxToken}
    (h : AgreeTo offset tokens tokens')
    (hmore : ∀ token ∈ more, min offset u32Max ≤ token.range.stop)
    (hmore' : ∀ token ∈ more', min offset u32Max ≤ token.range.stop) :
    AgreeTo offset (tokens ++ more) (tokens' ++ more') := by
  obtain ⟨common, later, later', rfl, rfl, hlater⟩ := h
  refine ⟨common, later ++ more, later' ++ more', List.append_assoc .., List.append_assoc .., ?_⟩
  intro token ht
  simp only [List.mem_append] at ht hlater
  rcases ht with (ht | ht) | ht | ht
  · exact hlater token (Or.inl ht)
  · exact hmore token ht
  · exact hlater token (Or.inr ht)
  · exact hmore' token ht

/-- Below the offset the two lists are equal. -/
theorem AgreeTo.filter_eq {offset frontier : Nat} {tokens tokens' : List SyntaxToken}
    (h : AgreeTo offset tokens tokens') (hle : frontier ≤ min offset u32Max) :
    tokens.filter (fun token => token.range.stop < frontier) =
      tokens'.filter fun token => token.range.stop < frontier := by
  obtain ⟨common, later, later', rfl, rfl, hlater⟩ := h
  have hnone : ∀ {part : List SyntaxToken}, (∀ token ∈ part, token ∈ later ++ later') →
      part.filter (fun token => token.range.stop < frontier) = [] := by
    intro part hpart
    rw [List.filter_eq_nil_iff]
    intro token ht
    have := hlater token (hpart token ht)
    simp only [decide_eq_true_eq]
    omega
  rw [List.filter_append, List.filter_append, hnone fun token => List.mem_append_left _,
    hnone fun token => List.mem_append_right _]

variable (guard : Guard σ) (start : σ) (source) in
/-- The guard has denied a question. Both parses stood at its offset then. -/
structure Denied (p : Parser σ) (q : Parser (List Check)) : Prop where
  stopped : p.stopped = true
  check : ∃ check, feed guard start q.guardState = .denied p.guardState check ∧
    min check.offset (byteLen source) ≤ cursor source p ∧
    min check.offset (byteLen source) ≤ cursor source q ∧
    AgreeTo (min check.offset (byteLen source)) p.tokens q.tokens

variable {guard : Guard σ} {start : σ}

theorem Denied.moved {p p' : Parser σ} {q q' : Parser (List Check)}
    (h : Denied source guard start p q) (hp : Moved source (Watch.free σ) p p')
    (hq : Moved source Watch.record q q') : Denied source guard start p' q' := by
  obtain ⟨check, hfeed, hcursor, hcursor', hagree⟩ := h.check
  obtain ⟨hstopped, hstate⟩ := hp.stopped h.stopped
  obtain ⟨-, more, hmore, -⟩ := hq.guard
  obtain ⟨tokens, htokens, hend⟩ := hp.tokens
  obtain ⟨tokens', htokens', hend'⟩ := hq.tokens
  have := hp.cursor
  have := hq.cursor
  refine ⟨hstopped, check, ?_, by omega, by omega, ?_⟩
  · rw [hstate, show q'.guardState = q.guardState ++ more from hmore]
    exact feed_denied hfeed more
  · rw [htokens, htokens']
    refine hagree.more (fun token ht => ?_) fun token ht => ?_
    · have := hend token ht
      omega
    · have := hend' token ht
      omega

/-- The link of a guarded and a recorded parse: the guard has allowed what the record holds. -/
abbrev guardLink (source : List Char) (guard : Guard σ) (start : σ) :
    Run.Link (Parser σ) (Parser (List Check)) :=
  twin (fun state log => feed guard start log = .going state) source (Watch.free σ) Watch.record
    (Denied source guard start) Denied.moved

theorem checkWork_guard (force : Bool) :
    Sim (guardLink source guard start) (checkWork (some guard) source force)
      (checkWork (some record) source force) := by
  refine ⟨fun p q a p' b q' h hp hq => ?_, checkWork_moves_free _ force,
    checkWork_moves_record force⟩
  unfold checkWork at hp hq
  rw [h.running, if_neg Bool.false_ne_true] at hp
  rw [h.running', if_neg Bool.false_ne_true] at hq
  dsimp only at hp hq
  rw [← h.work] at hq
  by_cases hforce : (force || (p.work + 1) % 256 == 0) = true
  · -- both guards are asked
    have hask := feed_concat h.guard ⟨q.position, q.nodes, q.depth⟩
    rw [if_pos hforce] at hp
    rw [if_pos hforce, if_pos (show (record _ _ _ _).1 = true from rfl)] at hq
    cases hq
    cases hgo : (guard p.guardState p.position p.nodes p.depth).1 with
    | true =>
      rw [if_pos hgo] at hp
      cases hp
      rw [← h.position, ← h.nodes, ← h.depth, ask_of_true hgo] at hask
      refine Or.inl ⟨rfl, { h with guard := ?_, work := rfl, running := rfl, running' := rfl }⟩
      dsimp only [record]
      rw [← h.position, ← h.nodes, ← h.depth]
      exact hask
    | false =>
      rw [if_neg (by rw [hgo]; exact Bool.false_ne_true)] at hp
      cases hp
      rw [← h.position, ← h.nodes, ← h.depth, ask_of_false hgo] at hask
      refine Or.inr ⟨rfl, ⟨p.position, p.nodes, p.depth⟩, ?_, ?_, ?_, q.tokens, [], [], ?_⟩
      · dsimp only [record]
        rw [← h.position, ← h.nodes, ← h.depth]
        exact hask
      · exact Nat.le_trans (Nat.min_le_right _ _) (Nat.le_of_eq (Nat.min_self _).symm)
      · exact Nat.le_of_eq (by rw [h.position]; rfl)
      · exact ⟨h.tokens.trans (List.append_nil _).symm, (List.append_nil _).symm, by simp⟩
  · rw [if_neg hforce] at hp hq
    cases hp
    cases hq
    exact Or.inl ⟨rfl, { h with work := rfl, running := rfl, running' := rfl }⟩

end

/-! ## Whole files -/

section

variable {σ τ : Type} {source : List Char}

variable {guard : Option (Guard σ)}

variable {K : σ → Prop} {p₀ p₁ p' : Parser σ}

theorem Document.moved {G : Watch σ} {start : σ} (h : Document guard source K start p₀ p₁ p')
    (hcontainer : Run.Moves (frame source G).Step
      (parseContainer guard source (containerLoop guard source (byteLen source + 1)) none))
    (hcheck : ∀ force, Run.Moves (frame source G).Step (checkWork guard source force)) :
    Moved source G (Parser.new start) p₁ := by
  obtain ⟨goOn, hp⟩ := h.check
  exact (hcontainer h.container).trans (hcheck true hp)

/-- The runs over a whole file in lockstep: they end in the same state, or one of them stopped. -/
theorem Document.lockstep {R : σ → τ → Prop} {G : Watch σ} {H : Watch τ}
    {Cut : Parser σ → Parser τ → Prop}
    (hcut : ∀ {p p' q q'}, Cut p q → Moved source G p p' → Moved source H q q' → Cut p' q')
    {guard' : Option (Guard τ)}
    (hcheck : ∀ force, Sim (twin R source G H Cut hcut) (checkWork guard source force)
      (checkWork guard' source force)) {K' : τ → Prop} {start : σ} {start' : τ}
        (hstart : R start start') (hp : Document guard source K start p₀ p₁ p')
    {q₀ q₁ q' : Parser τ} (hq : Document guard' source K' start' q₀ q₁ q') :
    Same R p₁ q₁ ∨ Cut p₁ q₁ := by
  obtain ⟨goOn, hp₁⟩ := hp.check
  obtain ⟨goOn', hq₁⟩ := hq.check
  have hnew : Same R (Parser.new start) (Parser.new start') :=
    ⟨hstart, rfl, rfl, rfl, rfl, rfl, rfl, rfl, rfl, rfl⟩
  rcases (topContainer_sim hcheck).agree hnew hp.container hq.container with ⟨-, hsame⟩ | hstop
  · rcases (hcheck true).agree hsame hp₁ hq₁ with ⟨-, hsame⟩ | hstop
    · exact Or.inl hsame
    · exact Or.inr hstop
  · exact Or.inr (hcut hstop ((hcheck true).left hp₁) ((hcheck true).right hq₁))

/-- The document node changes neither the tokens nor the guard. -/
theorem Document.after {start : σ} (h : Document guard source K start p₀ p₁ p') :
    p' = { p₁ with nodes := p₁.nodes + 1, tree := p'.tree } := by
  obtain ⟨index, hemit⟩ := h.emit
  exact (emit_eq_some hemit).1

/-- Runs that end in the same state have the same result. -/
theorem Document.parts_eq {R : σ → τ → Prop} {guard' : Option (Guard τ)} {K' : τ → Prop} {start : σ}
    {start' : τ} (hp : Document guard source K start p₀ p₁ p')
    {q₀ q₁ q' : Parser τ} (hq : Document guard' source K' start' q₀ q₁ q')
    (h : Same R p₁ q₁) : p'.parts = q'.parts := by
  obtain ⟨index, hemit⟩ := hp.emit
  obtain ⟨index', hemit'⟩ := hq.emit
  unfold Script.emit at hemit hemit'
  rw [Parser.pending, h.tree] at hemit
  obtain ⟨⟨index, tree⟩, hnode, hp'⟩ := Option.map_eq_some_iff.mp hemit
  rw [Parser.pending, hnode] at hemit'
  cases hp'
  cases hemit'
  unfold Parser.parts
  rw [h.tokens, h.errors]

/-- What the ordinary parse and its record leave. -/
structure Ordinary (source : List Char) (full : ParseParts)
    (q₁ q' : Parser (List Check)) : Prop where
  parse : parse source = some full
  parts : full = q'.parts
  tokens : q₁.tokens = full.tokens
  log : q₁.guardState = checks source
  moved : Moved source Watch.record (Parser.new []) q₁
  finished : Finished .script source q'.tree q'.tokens q'.errors
  kinds : q'.tree.tree.kinds = q₁.tree.tree.kinds ++ [.document]
  nodes : q'.tree.count = q₁.nodes + 1
  document : ∃ q₀, Document (some record) source
    (fun log => ∀ check ∈ log, check.offset ≤ byteLen source) [] q₀ q₁ q'

/-- The questions of the ordinary parse are about offsets in the source. -/
theorem record_keeps : Keeps (some record) source
    fun log => ∀ check ∈ log, check.offset ≤ byteLen source := by
  rintro g ⟨⟩ log offset nodes depth hlog hoffset check hc
  rcases List.mem_append.mp hc with hc | hc
  · exact hlog check hc
  · rw [List.mem_singleton.mp hc]
    exact hoffset

theorem free_keeps (guard : Option (Guard σ)) : Keeps guard source fun _ => True :=
  fun _ _ _ _ _ _ _ _ => trivial

theorem exists_ordinary (source : List Char) : ∃ full q₁ q', Ordinary source full q₁ q' := by
  obtain ⟨q₀, q₁, q', hq⟩ := exists_document (@record_keeps source) [] (by simp)
  obtain ⟨r₀, r₁, r', hr⟩ := exists_document (@free_keeps Unit source none) () trivial
  have hsame : Same (fun _ _ => True) q₁ r₁ := by
    rcases Document.lockstep (fun h _ _ => h) checkWork_record trivial hq hr with h | h
    · exact h
    · exact h.elim
  have hafter := hq.after
  refine ⟨q'.parts, q₁, q', ?_, rfl, ?_, ?_, ?_, hq.finished, hq.kinds, ?_, q₀, hq⟩
  · unfold Script.parse
    rw [hr.run, hq.parts_eq hr hsame]
    rfl
  · rw [hafter]
    rfl
  · unfold checks
    rw [hq.run, hafter]
    rfl
  · exact hq.moved (topContainer_sim checkWork_record).left checkWork_moves_record
  · rw [← hq.inv.nodes, hafter]

variable {full : ParseParts} {q₁ q' : Parser (List Check)}

theorem parts_tree (p : Parser σ) : p.parts.tree = p.tree.finish := rfl

theorem parts_cores (p : Parser σ) : p.parts.tree.cores = p.tree.cores := by
  unfold Parser.parts SyntaxTreeBuilder.finish
  rfl

theorem Ordinary.offset_le (h : Ordinary source full q₁ q') {check : Check}
    (hc : check ∈ checks source) : check.offset ≤ byteLen source := by
  obtain ⟨q₀, hq⟩ := h.document
  have hkeeps := hq.inv.ready.guardState
  rw [hq.after] at hkeeps
  exact hkeeps check (by rw [h.log]; exact hc)

/-- Every question is put before the document node is there. -/
theorem Ordinary.nodes_lt (h : Ordinary source full q₁ q') {check : Check}
    (hc : check ∈ checks source) : check.nodes < full.tree.cores.length := by
  obtain ⟨-, more, hmore, hbound⟩ := h.moved.guard
  have hlog : checks source = more := h.log.symm.trans hmore
  have hle : check.nodes ≤ q₁.nodes := (hbound check (by rw [← hlog]; exact hc)).2
  have hcount : full.tree.cores.length = q₁.nodes + 1 := by
    rw [← h.nodes, h.parts, parts_cores]
  omega

/-- The ordinary parse is well formed when it fits into `u32`. -/
theorem Ordinary.isValidFor (h : Ordinary source full q₁ q') (hlen : byteLen source ≤ u32Max)
    (hcount : full.tree.cores.length ≤ 2 ^ 32) :
    (ParsedFile.fromParts .script source full 0).isValidFor .script source = true := by
  have hparts := h.parts
  subst hparts
  exact Finished.isValidFor_parts (parts_tree q') (parts_cores q') h.finished hlen hcount 0

/-- A parse whose guard has denied a question, against the ordinary one. -/
structure Prefix (source : List Char) (check : Check) (parts full : ParseParts) : Prop where
  mem : check ∈ checks source
  agree : AgreeTo check.offset parts.tokens full.tokens
  finished : ∃ b : SyntaxTreeBuilder, parts.tree = b.finish ∧ parts.tree.cores = b.cores ∧
    Finished .script source b parts.tokens parts.errors

/-- A guarded parse is the ordinary one, put to the guard question by question. -/
theorem guarded_spec (h : Ordinary source full q₁ q') (guard : Guard σ) (start : σ) :
    (∃ state, feed guard start (checks source) = .going state ∧
      parseGuardedPrefix source guard start = some (full, false, state)) ∨
    ∃ state check parts, feed guard start (checks source) = .denied state check ∧
      parseGuardedPrefix source guard start = some (parts, true, state) ∧
      Prefix source check parts full := by
  obtain ⟨q₀, hq⟩ := h.document
  obtain ⟨p₀, p₁, p', hp⟩ := exists_document (@free_keeps σ source (some guard)) start trivial
  have hrun : parseGuardedPrefix source guard start =
      some (p'.parts, p₁.stopped, p₁.guardState) := by
    unfold parseGuardedPrefix
    rw [hp.run, hp.after]
    rfl
  rcases Document.lockstep Denied.moved checkWork_guard rfl hp hq with hsame | hdenied
  · refine Or.inl ⟨p₁.guardState, h.log ▸ hsame.guard, ?_⟩
    rw [hrun, hsame.running, hp.parts_eq hq hsame, h.parts]
  · obtain ⟨check, hfeed, -, -, hagree⟩ := hdenied.check
    rw [h.log] at hfeed
    have hmem := mem_of_denied hfeed
    rw [Nat.min_eq_left (h.offset_le hmem), h.tokens] at hagree
    refine Or.inr ⟨p₁.guardState, check, p'.parts, hfeed, ?_, hmem, ?_, p'.tree, rfl,
      ?_, hp.finished⟩
    · rw [hrun, hdenied.stopped]
    · rw [show p'.parts.tokens = p₁.tokens by rw [hp.after]; rfl]
      exact hagree
    · exact parts_cores p'

/-! ## A guard that denies the first question -/

theorem checkWork_stopped {p : Parser σ} (h : p.stopped = true)
    (force : Bool) : checkWork guard source force p = some (false, p) := by
  unfold checkWork
  rw [if_pos h]

theorem checkWork_denied {guard : Guard σ} {p : Parser σ} (hs : p.stopped = false)
    (h : (guard p.guardState p.position p.nodes p.depth).1 = false) :
    checkWork (some guard) source true p =
      some (false, { p with
        guardState := (guard p.guardState p.position p.nodes p.depth).2
        work := p.work + 1
        stopped := true
        position := byteLen source }) := by
  unfold checkWork
  rw [hs, if_neg Bool.false_ne_true]
  dsimp only
  rw [if_pos (Bool.true_or _), if_neg (by rw [h]; exact Bool.false_ne_true)]

/-- The result is an empty document then. -/
theorem parseGuardedPrefix_denied (source : List Char) {guard : Guard σ} {start : σ}
    (h : (guard start 0 0 1).1 = false) :
    parseGuardedPrefix source guard start =
      some (⟨⟨[.document], [⟨range 0 (byteLen source), 0, 0⟩], [], 0⟩, [], []⟩, true,
        (guard start 0 0 1).2) := by
  let opened : Parser σ := ⟨start, 0, 0, 1, false, 0, [], [], .empty⟩
  let stopped : Parser σ :=
    ⟨(guard start 0 0 1).2, 1, 0, 1, true, byteLen source, [], [], .empty⟩
  let closed : Parser σ := { stopped with depth := 0 }
  have hcheck : checkWork (some guard) source true opened = some (false, stopped) :=
    checkWork_denied (p := opened) rfl h
  have hloop : containerLoop (some guard) source (byteLen source + 1) none stopped =
      some ((), stopped) := by
    unfold containerLoop
    exact (Run.bind_of_eq_some (checkWork_stopped rfl false)).trans rfl
  have hcontainer : parseContainer (some guard) source
      (containerLoop (some guard) source (byteLen source + 1)) none (Parser.new start) =
      some ((), closed) := by
    unfold parseContainer
    rw [Run.modify_bind]
    exact (Run.bind_of_eq_some hcheck).trans ((Run.bind_of_eq_some hloop).trans rfl)
  have hsince : childrenSince (Parser.new start).tree.children.length closed = some (0, closed) :=
    rfl
  have hwork : checkWork (some guard) source true closed = some (false, closed) :=
    checkWork_stopped rfl true
  let builder : SyntaxTreeBuilder := ⟨⟨[.document], [⟨range 0 (byteLen source), 0, 0⟩], [], 0⟩, [],
    false⟩
  have hemit : emit .document (range 0 (byteLen source)) 0 closed =
      some (0, { closed with nodes := 1, tree := builder }) := rfl
  have hrun : parseDocument (some guard) source (Parser.new start) =
      some ((), { closed with nodes := 1, tree := builder }) := by
    unfold parseDocument node
    rw [childrenMark, Run.read_bind, Run.bind_of_eq_some hcontainer, Run.bind_of_eq_some hsince,
      Run.bind_of_eq_some ((Run.bind_of_eq_some hwork).trans hemit)]
    rfl
  have hfinish : builder.finish = ⟨[.document], [⟨range 0 (byteLen source), 0, 0⟩], [], 0⟩ :=
    SyntaxTreeBuilder.finish_eq Nat.one_pos (show 1 ≤ 2 ^ 32 by decide)
  unfold parseGuardedPrefix
  rw [hrun, ← hfinish]
  rfl

end

end ParadoxCode.Script

import ParadoxCode.Parser.File
import ParadoxCode.Parser.ScriptGuard

/-!
# Bounded parses

Both bounded parses are guarded parses, so `guarded_spec` tells what they do: without a denied
question they are the ordinary parse, and a denial comes from the checkpoint or from a limit that
the ordinary parse exceeds as well.
-/

namespace ParadoxCode.Parser

open Script (Check Ordinary checks feed nesting)

section

variable {E : Type} {budget : ScriptParseBudget} {checkpoint : Checkpoint E}

theorem exceeded_eq_some {nodes depth : Nat} {limit : ScriptParseLimit}
    (h : budget.exceeded nodes depth = some limit) :
    (limit = .depth ∧ budget.depth < depth) ∨ (limit = .nodes ∧ budget.nodes ≤ nodes) := by
  unfold ScriptParseBudget.exceeded at h
  split_ifs at h with hdepth hnodes
  · cases h
    exact Or.inl ⟨rfl, hdepth⟩
  · cases h
    exact Or.inr ⟨rfl, hnodes⟩

/-! ## Success is the ordinary parse -/

/-- The state of a guard that has allowed everything: the checkpoint has never refused. -/
structure Allowed {L : Type} (checkpoint : Checkpoint E) (state : GuardState E L) : Prop where
  cancellation : state.cancellation = none
  calls : ∀ i < state.calls, checkpoint i = .ok ()

theorem Allowed.start {L : Type} (h : checkpoint 0 = .ok ()) :
    Allowed checkpoint (⟨1, none, none⟩ : GuardState E L) := by
  refine ⟨rfl, fun i hi => ?_⟩
  rw [Nat.lt_one_iff.mp hi, h]

theorem Allowed.next {L : Type} {state : GuardState E L} (h : Allowed checkpoint state)
    (hcall : checkpoint state.calls = .ok ()) (limit : Option L) :
    Allowed checkpoint (⟨state.calls + 1, state.cancellation, limit⟩ : GuardState E L) := by
  refine ⟨h.cancellation, fun i hi => ?_⟩
  rcases Nat.lt_succ_iff_lt_or_eq.mp hi with hi | rfl
  · exact h.calls i hi
  · exact hcall

theorem boundedGuard_allowed (state : GuardState E ScriptParseLimit) (offset nodes depth : Nat)
    (h : Allowed checkpoint state)
    (hgo : (boundedGuard budget checkpoint state offset nodes depth).1 = true) :
    Allowed checkpoint (boundedGuard budget checkpoint state offset nodes depth).2 := by
  unfold boundedGuard at *
  cases hcall : checkpoint state.calls with
  | error error =>
    rw [hcall] at hgo
    cases hgo
  | ok =>
    exact h.next hcall _

/-- What a bounded parse may return, next to the ordinary parse `full` of the same source. -/
def Justified (source : List Char) (budget : ScriptParseBudget) (checkpoint : Checkpoint E)
    (full : ParsedFile) (calls : Nat) : Except E (Except ScriptParseLimit ParsedFile) → Prop
  | .error error => ∃ call < calls, checkpoint call = .error error
  | .ok (.ok file) => file = full
  | .ok (.error .bytes) => budget.bytes < byteLen source
  | .ok (.error .nodes) => budget.nodes < full.tree.cores.length
  | .ok (.error .depth) => budget.depth < nesting source

/-- A bounded parse that succeeds is the ordinary parse, and it fails only because the checkpoint
has refused or the source exceeds the budget. -/
theorem parseScriptBounded_justified (source : List Char) (budget : ScriptParseBudget)
    (checkpoint : Checkpoint E) :
    ∃ outcome calls full, parseScriptBounded source budget checkpoint = some (outcome, calls) ∧
      parse .script source = some full ∧
      Justified source budget checkpoint full calls outcome := by
  obtain ⟨full, q₁, q', h⟩ := Script.exists_ordinary source
  have hparse : parse .script source = some (ParsedFile.fromParts .script source full 0) := by
    unfold parse parseWithRevision
    dsimp only
    rw [h.parse]
    rfl
  unfold parseScriptBounded
  cases hcall : checkpoint 0 with
  | error error => exact ⟨_, _, _, rfl, hparse, 0, Nat.one_pos, hcall⟩
  | ok =>
    dsimp only
    split_ifs with hbytes
    · exact ⟨_, _, _, rfl, hparse, hbytes⟩
    unfold Script.parseGuarded
    rcases Script.guarded_spec h (boundedGuard budget checkpoint) ⟨1, none, none⟩ with
      ⟨state, hfeed, hrun⟩ | ⟨state, check, parts, hfeed, hrun, hfront⟩
    · -- nothing was denied
      have hallowed := Script.feed_going boundedGuard_allowed (Allowed.start hcall) hfeed
      rw [hrun]
      simp only [Option.map_some, hallowed.cancellation, Bool.false_eq_true, if_false]
      cases hlast : checkpoint state.calls with
      | error error => exact ⟨_, _, _, rfl, hparse, state.calls, Nat.lt_succ_self _, hlast⟩
      | ok => exact ⟨_, _, _, rfl, hparse, rfl⟩
    · -- the guard denied `check`
      obtain ⟨last, hallowed, hlast⟩ :=
        Script.feed_last boundedGuard_allowed (Allowed.start hcall) hfeed
      rw [hrun]
      simp only [Option.map_some, if_true]
      unfold boundedGuard at hlast
      cases hrefused : checkpoint last.calls with
      | error error =>
        rw [hrefused] at hlast
        cases hlast
        exact ⟨_, _, _, rfl, hparse, last.calls, Nat.lt_succ_self _, hrefused⟩
      | ok =>
        rw [hrefused] at hlast
        dsimp only at hlast
        cases hlimit : budget.exceeded check.nodes check.depth with
        | none =>
          rw [hlimit] at hlast
          cases hlast
        | some limit =>
          rw [hlimit] at hlast
          cases hlast
          simp only [hallowed.cancellation, Option.getD_some]
          refine ⟨_, _, _, rfl, hparse, ?_⟩
          rcases exceeded_eq_some hlimit with ⟨rfl, hdepth⟩ | ⟨rfl, hnodes⟩
          · exact Nat.lt_of_lt_of_le hdepth (Script.depth_le_nesting hfront.mem)
          · exact Nat.lt_of_le_of_lt hnodes (h.nodes_lt hfront.mem)

/-! ## A prefix agrees with the ordinary parse -/

theorem prefixGuard_allowed (state : GuardState E (ScriptParseLimit × Nat))
    (offset nodes depth : Nat) (h : Allowed checkpoint state ∧ state.limit = none)
    (hgo : (prefixGuard budget checkpoint state offset nodes depth).1 = true) :
    Allowed checkpoint (prefixGuard budget checkpoint state offset nodes depth).2 ∧
      (prefixGuard budget checkpoint state offset nodes depth).2.limit = none := by
  unfold prefixGuard at *
  cases hcall : checkpoint state.calls with
  | error error =>
    rw [hcall] at hgo
    cases hgo
  | ok =>
    rw [hcall] at hgo
    cases hlimit : budget.exceeded nodes depth with
    | some limit =>
      rw [hlimit] at hgo
      cases hgo
    | none => exact ⟨h.1.next hcall _, h.2⟩

/-- What a bounded prefix keeps of the ordinary parse `full` of the same source. -/
structure Faithful (source : List Char) (checkpoint : Checkpoint E) (full : ParsedFile)
    (calls : Nat) (progress : ScriptParseProgress) : Prop where
  /-- A cancelled parse is never published. -/
  allowed : ∀ call < calls, checkpoint call = .ok ()
  /-- Without a frontier the prefix is the whole parse. -/
  complete : progress.frontier = none → progress.parsed = some full
  /-- The tokens that end before the frontier are the ordinary ones. -/
  tokens : ∀ file ∈ progress.parsed, ∀ limit frontier, progress.frontier = some (limit, frontier) →
    file.tokens.filter (fun token => token.range.stop < frontier) =
      full.tokens.filter fun token => token.range.stop < frontier
  /-- A prefix that fits into `u32` is well formed. -/
  valid : ∀ file ∈ progress.parsed, byteLen source ≤ u32Max → file.tree.cores.length ≤ 2 ^ 32 →
    file.isValidFor .script source = true

theorem asU32_le_min (offset : Nat) : asU32 offset ≤ min offset u32Max :=
  Nat.le_min.mpr ⟨asU32_le offset, Nat.le_of_lt_succ (Nat.mod_lt _ (by decide))⟩

/-- A bounded prefix agrees with the ordinary parse before its frontier, and is published only when
the checkpoint has never refused. -/
theorem parseScriptPrefixBounded_faithful (source : List Char) (budget : ScriptParseBudget)
    (checkpoint : Checkpoint E) :
    ∃ outcome calls full,
      parseScriptPrefixBounded source budget checkpoint = some (outcome, calls) ∧
      parse .script source = some full ∧
      match outcome with
      | .error error => ∃ call < calls, checkpoint call = .error error
      | .ok progress => Faithful source checkpoint full calls progress := by
  obtain ⟨full, q₁, q', h⟩ := Script.exists_ordinary source
  have hparse : parse .script source = some (ParsedFile.fromParts .script source full 0) := by
    unfold parse parseWithRevision
    dsimp only
    rw [h.parse]
    rfl
  unfold parseScriptPrefixBounded
  cases hcall : checkpoint 0 with
  | error error => exact ⟨_, _, _, rfl, hparse, 0, Nat.one_pos, hcall⟩
  | ok =>
    dsimp only
    split_ifs with hbytes
    · refine ⟨_, _, _, rfl, hparse, ?_, by rintro ⟨⟩, by simp, by simp⟩
      exact (Allowed.start (L := Unit) hcall).calls
    have hstart : Allowed checkpoint (⟨1, none, none⟩ : GuardState E (ScriptParseLimit × Nat)) ∧
      (none : Option (ScriptParseLimit × Nat)) = none := ⟨Allowed.start hcall, rfl⟩
    rcases Script.guarded_spec h (prefixGuard budget checkpoint) ⟨1, none, none⟩ with
      ⟨state, hfeed, hrun⟩ | ⟨state, check, parts, hfeed, hrun, hfront⟩
    · -- nothing was denied: the whole file
      obtain ⟨hallowed, hlimit⟩ := Script.feed_going prefixGuard_allowed hstart hfeed
      rw [hrun]
      simp only [Option.bind_some, hallowed.cancellation, hlimit, Bool.false_and,
        Bool.false_eq_true, if_false]
      cases hlast : checkpoint state.calls with
      | error error => exact ⟨_, _, _, rfl, hparse, state.calls, Nat.lt_succ_self _, hlast⟩
      | ok =>
        refine ⟨_, _, _, rfl, hparse, (hallowed.next hlast state.limit).calls,
          fun _ => rfl, by simp, ?_⟩
        rintro file ⟨⟩ hlen hcount
        exact h.isValidFor hlen hcount
    · -- the guard denied `check`
      obtain ⟨last, ⟨hallowed, hnone⟩, hlast⟩ := Script.feed_last prefixGuard_allowed hstart hfeed
      rw [hrun]
      simp only [Option.bind_some]
      unfold prefixGuard at hlast
      cases hrefused : checkpoint last.calls with
      | error error =>
        rw [hrefused] at hlast
        cases hlast
        exact ⟨_, _, _, rfl, hparse, last.calls, Nat.lt_succ_self _, hrefused⟩
      | ok =>
        rw [hrefused] at hlast
        cases hlimit : budget.exceeded check.nodes check.depth with
        | none =>
          rw [hlimit] at hlast
          cases hlast
        | some limit =>
          rw [hlimit] at hlast
          cases hlast
          have hnext := hallowed.next hrefused (some (limit, asU32 check.offset))
          simp only [hallowed.cancellation, Option.isNone_some, Bool.and_false, Bool.false_eq_true,
            if_false]
          cases hend : checkpoint (last.calls + 1) with
          | error error => exact ⟨_, _, _, rfl, hparse, _, Nat.lt_succ_self _, hend⟩
          | ok =>
            obtain ⟨b, htree, hcores, hfinished⟩ := hfront.finished
            refine ⟨_, _, _, rfl, hparse, (hnext.next hend none).calls, by rintro ⟨⟩, ?_, ?_⟩
            · rintro file ⟨⟩ limit frontier ⟨⟩
              exact hfront.agree.filter_eq (asU32_le_min check.offset)
            · rintro file ⟨⟩ hlen hcount
              exact hfinished.isValidFor_parts htree hcores hlen hcount 0

end

/-! ## Sources that do not fit into `u32` -/

/-- A budget of no nodes stops the parse before its first byte. -/
theorem parseScriptPrefixBounded_nothing (source : List Char) {bytes depth : Nat}
    (hbytes : byteLen source ≤ bytes) (hdepth : 1 ≤ depth) :
    parseScriptPrefixBounded source ⟨bytes, 0, depth⟩ (fun _ => .ok () : Checkpoint Unit) =
      some (.ok ⟨some (ParsedFile.fromParts .script source
        ⟨⟨[.document], [⟨range 0 (byteLen source), 0, 0⟩], [], 0⟩, [], []⟩ 0), some (.nodes, 0)⟩,
        3) := by
  have hexceeded : (⟨bytes, 0, depth⟩ : ScriptParseBudget).exceeded 0 1 = some .nodes := by
    unfold ScriptParseBudget.exceeded
    rw [if_neg (Nat.not_lt.mpr hdepth), if_pos (Nat.zero_le _)]
  have hguard : prefixGuard ⟨bytes, 0, depth⟩ (fun _ => .ok () : Checkpoint Unit)
    ⟨1, none, none⟩ 0 0 1 =
      (false, ⟨2, none, some (.nodes, 0)⟩) := by
    unfold prefixGuard
    rw [hexceeded]
    rfl
  unfold parseScriptPrefixBounded
  dsimp only
  rw [if_neg (Nat.not_lt.mpr hbytes), Script.parseGuardedPrefix_denied source (by rw [hguard]),
    hguard]
  rfl

theorem byteLen_replicate (count : Nat) : byteLen (List.replicate count 'é') = 2 * count := by
  induction count with
  | zero => rfl
  | succ count ih =>
    rw [List.replicate_succ, byteLen_cons, ih, show 'é'.utf8Size = 2 from by decide]
    omega

/-- The boundaries of a text of two-byte characters are even. -/
theorem even_of_boundary {count index : Nat} (h : Boundary (List.replicate count 'é') index) :
    2 ∣ index := by
  obtain ⟨before, after, heq, rfl⟩ := h
  obtain ⟨-, hbefore, -⟩ := List.replicate_eq_append_iff.mp heq
  rw [hbefore, byteLen_replicate]
  exact Nat.dvd_mul_right _ _

/-- The prefix of a source of 4 GiB need not be well formed: its document node ends at `u32::MAX`,
which may lie inside a character. -/
theorem parseScriptPrefixBounded_long :
    ∃ file calls, parseScriptPrefixBounded (List.replicate (2 ^ 31) 'é') ⟨2 ^ 32, 0, 128⟩
        (fun _ => .ok () : Checkpoint Unit) = some (.ok ⟨some file, some (.nodes, 0)⟩, calls) ∧
      file.isValidFor .script (List.replicate (2 ^ 31) 'é') = false := by
  have hlen : byteLen (List.replicate (2 ^ 31) 'é') = 2 ^ 32 := byteLen_replicate (2 ^ 31)
  generalize hsource : List.replicate (2 ^ 31) 'é' = source at hlen
  refine ⟨_, _, parseScriptPrefixBounded_nothing source (Nat.le_of_eq hlen) (by decide), ?_⟩
  have hodd : ¬ Boundary source (min (2 ^ 32) u32Max) := by
    rw [← hsource]
    intro h
    exact absurd (even_of_boundary h) (by decide)
  have hrange : (range 0 (byteLen source)).stop = min (2 ^ 32) u32Max := by
    rw [hlen]
    rfl
  have hinvalid : validRange (range 0 (byteLen source)) source = false := by
    rw [Bool.eq_false_iff]
    intro h
    unfold validRange at h
    rw [Bool.and_eq_true, getText_isSome_iff, hrange] at h
    exact hodd h.2.2.2
  have hnode : validNode ⟨[.document], [⟨range 0 (byteLen source), 0, 0⟩], [], 0⟩ source 2 0
    none = false := by
    unfold validNode
    dsimp only [List.getElem?_cons_zero]
    rw [hinvalid]
    rfl
  rw [isValidFor_eq]
  dsimp only [List.length_singleton]
  rw [hnode, Bool.and_false, Bool.false_and, Bool.false_and]

end ParadoxCode.Parser

import Std.Data.ExtTreeMap
import Mathlib.Data.List.Basic

/-!
# Buckets in two levels of maps

Lists under two keys. Where no level is empty (`Full`), the maps are determined by their buckets
(`Full.ext`). Every operation changes one map of the second level (`bucket_alter`, `Full.alter`).
-/

/-- Lists under a key. -/
abbrev ListMap (κ₂ β : Type) [Ord κ₂] : Type := Std.ExtTreeMap κ₂ (List β)

/-- Lists under two keys. -/
abbrev Buckets (κ₁ κ₂ β : Type) [Ord κ₁] [Ord κ₂] : Type := Std.ExtTreeMap κ₁ (ListMap κ₂ β)

namespace Buckets

variable {κ₁ κ₂ β : Type} [Ord κ₁] [Ord κ₂] [Std.TransOrd κ₁] [Std.TransOrd κ₂]

/-- The list of a key in a map of the second level. -/
def listAt (inner : Option (ListMap κ₂ β)) (k₂ : κ₂) : List β :=
  (inner.bind fun inner => inner[k₂]?).getD []

/-- The list of two keys. -/
def bucket (t : Buckets κ₁ κ₂ β) (key : κ₁ × κ₂) : List β := listAt t[key.1]? key.2

/-- Appends to a list. -/
def push (t : Buckets κ₁ κ₂ β) (key : κ₁ × κ₂) (b : β) : Buckets κ₁ κ₂ β :=
  t.alter key.1 fun inner => some ((inner.getD ∅).insert key.2 (listAt inner key.2 ++ [b]))

/-- Changes a list, where there is one. -/
def update (t : Buckets κ₁ κ₂ β) (key : κ₁ × κ₂) (f : List β → List β) : Buckets κ₁ κ₂ β :=
  t.alter key.1 fun inner => inner.map fun inner => inner.modify key.2 f

/-- Drops a map that is empty. -/
def nonempty (inner : ListMap κ₂ β) : Option (ListMap κ₂ β) :=
  if inner.isEmpty then none else some inner

/-- Keeps what passes, and drops a list that is empty then. -/
def retainIn (inner : ListMap κ₂ β) (k₂ : κ₂) (p : β → Bool) : Option (ListMap κ₂ β) :=
  match inner[k₂]? with
  | none => some inner
  | some list =>
    if list.filter p = [] then nonempty (inner.erase k₂) else some (inner.insert k₂ (list.filter p))

/-- Keeps what passes, and drops what is empty then. -/
def retain (t : Buckets κ₁ κ₂ β) (key : κ₁ × κ₂) (p : β → Bool) : Buckets κ₁ κ₂ β :=
  t.alter key.1 fun inner => inner.bind fun inner => retainIn inner key.2 p

/-- Changes every list. -/
def mapLists (t : Buckets κ₁ κ₂ β) (f : List β → List β) : Buckets κ₁ κ₂ β :=
  t.map fun _ inner => inner.map fun _ list => f list

/-! ## One map of the second level -/

/-- A map without empty lists that is not empty. -/
structure FullAt (inner : ListMap κ₂ β) : Prop where
  ne_empty : inner ≠ ∅
  lists : ∀ k₂ : κ₂, inner[k₂]? ≠ some []

/-- No level is empty. -/
def Full (t : Buckets κ₁ κ₂ β) : Prop :=
  ∀ (k₁ : κ₁) (inner : ListMap κ₂ β), t[k₁]? = some inner → FullAt inner

theorem FullAt.getElem? {inner : ListMap κ₂ β} (h : FullAt inner) (k₂ : κ₂) :
    inner[k₂]? = if listAt (some inner) k₂ = [] then none else some (listAt (some inner) k₂) := by
  unfold listAt
  rw [Option.bind_some]
  cases hlist : inner[k₂]? with
  | none => rfl
  | some list =>
    rw [Option.getD_some, if_neg]
    rintro rfl
    exact h.lists k₂ hlist

theorem FullAt.insert {inner : ListMap κ₂ β} (h : ∀ k₂ : κ₂, inner[k₂]? ≠ some [])
    (k₂ : κ₂) {list : List β} (hlist : list ≠ []) : FullAt (inner.insert k₂ list) := by
  constructor
  · intro hempty
    have hself : (inner.insert k₂ list)[k₂]? = some list := Std.ExtTreeMap.getElem?_insert_self
    rw [hempty, Std.ExtTreeMap.getElem?_empty] at hself
    cases hself
  · intro k
    rw [Std.ExtTreeMap.getElem?_insert]
    split_ifs
    · exact fun h => hlist (Option.some.inj h)
    · exact h k

theorem listAt_nonempty (inner : ListMap κ₂ β) (k : κ₂) :
    listAt (nonempty inner) k = listAt (some inner) k := by
  unfold nonempty
  split_ifs with h
  · rw [Std.ExtTreeMap.isEmpty_iff.mp h]
    unfold listAt
    rw [Option.bind_some, Std.ExtTreeMap.getElem?_empty]
    rfl
  · rfl

theorem bucket_empty (key : κ₁ × κ₂) : bucket (∅ : Buckets κ₁ κ₂ β) key = [] := by
  unfold bucket
  rw [Std.ExtTreeMap.getElem?_empty]
  rfl

theorem full_empty : Full (∅ : Buckets κ₁ κ₂ β) := by
  intro k₁ inner h
  rw [Std.ExtTreeMap.getElem?_empty] at h
  cases h

theorem Full.alter {t : Buckets κ₁ κ₂ β} (h : Full t) (k₁ : κ₁)
    {f : Option (ListMap κ₂ β) → Option (ListMap κ₂ β)}
    (hf : ∀ inner, f t[k₁]? = some inner → FullAt inner) : Full (t.alter k₁ f) := by
  intro k inner hk
  rw [Std.ExtTreeMap.getElem?_alter] at hk
  split_ifs at hk
  · exact hf inner hk
  · exact h k inner hk

variable [Std.LawfulEqOrd κ₂]

theorem FullAt.modify {inner : ListMap κ₂ β} (h : FullAt inner) (k₂ : κ₂)
    {f : List β → List β} (hf : ∀ list, f list = [] → list = []) : FullAt (inner.modify k₂ f) := by
  constructor
  · intro hempty
    refine h.ne_empty (Std.ExtTreeMap.ext_getElem? fun k => ?_)
    have hnone : (inner.modify k₂ f)[k]? = none := by rw [hempty, Std.ExtTreeMap.getElem?_empty]
    rw [Std.ExtTreeMap.getElem?_modify] at hnone
    rw [Std.ExtTreeMap.getElem?_empty]
    split_ifs at hnone with heq
    · rw [← Std.LawfulEqCmp.compare_eq_iff_eq.mp heq]
      exact Option.map_eq_none_iff.mp hnone
    · exact hnone
  · intro k
    rw [Std.ExtTreeMap.getElem?_modify]
    split_ifs
    · intro hnil
      obtain ⟨list, hlist, hf'⟩ := Option.map_eq_some_iff.mp hnil
      exact h.lists k₂ (hf list hf' ▸ hlist)
    · exact h.lists k

omit [Std.LawfulEqOrd κ₂] in
theorem fullAt_of_retainIn {inner inner' : ListMap κ₂ β} (h : FullAt inner) {k₂ : κ₂}
    {p : β → Bool} (hretain : retainIn inner k₂ p = some inner') : FullAt inner' := by
  unfold retainIn at hretain
  cases hlist : inner[k₂]? with
  | none =>
    rw [hlist] at hretain
    exact Option.some.inj hretain ▸ h
  | some list =>
    rw [hlist] at hretain
    dsimp only at hretain
    split_ifs at hretain with hnil
    · unfold nonempty at hretain
      split_ifs at hretain with hempty
      obtain rfl := Option.some.inj hretain
      refine ⟨fun h => hempty (Std.ExtTreeMap.isEmpty_iff.mpr h), fun k => ?_⟩
      rw [Std.ExtTreeMap.getElem?_erase]
      split_ifs
      · exact fun h => nomatch h
      · exact h.lists k
    · exact Option.some.inj hretain ▸ FullAt.insert h.lists k₂ hnil

section

variable [DecidableEq κ₂]

theorem listAt_insert (inner : ListMap κ₂ β) (k₂ k : κ₂) (list : List β) :
    listAt (some (inner.insert k₂ list)) k = if k₂ = k then list else listAt (some inner) k := by
  unfold listAt
  rw [Option.bind_some, Option.bind_some, Std.ExtTreeMap.getElem?_insert]
  simp only [Std.LawfulEqCmp.compare_eq_iff_eq]
  split_ifs <;> rfl

theorem listAt_modify (inner : Option (ListMap κ₂ β)) (k₂ k : κ₂) {f : List β → List β}
    (hf : f [] = []) :
    listAt (inner.map fun inner => inner.modify k₂ f) k =
      if k₂ = k then f (listAt inner k₂) else listAt inner k := by
  cases inner with
  | none => exact ((ite_congr rfl (fun _ => hf) fun _ => rfl).trans (ite_self _)).symm
  | some inner =>
    unfold listAt
    rw [Option.map_some, Option.bind_some, Option.bind_some, Option.bind_some,
      Std.ExtTreeMap.getElem?_modify]
    simp only [Std.LawfulEqCmp.compare_eq_iff_eq]
    split_ifs
    · cases inner[k₂]? with
      | none => exact hf.symm
      | some list => rfl
    · rfl

theorem listAt_retainIn (inner : Option (ListMap κ₂ β)) (k₂ k : κ₂) (p : β → Bool) :
    listAt (inner.bind fun inner => retainIn inner k₂ p) k =
      if k₂ = k then (listAt inner k₂).filter p else listAt inner k := by
  cases inner with
  | none => exact (ite_self _).symm
  | some inner =>
    rw [Option.bind_some]
    unfold retainIn
    cases hlist : inner[k₂]? with
    | none =>
      dsimp only
      split_ifs with h
      · subst h
        unfold listAt
        rw [Option.bind_some, hlist]
        rfl
      · rfl
    | some list =>
      have hself : listAt (some inner) k₂ = list := by
        unfold listAt
        rw [Option.bind_some, hlist]
        rfl
      dsimp only
      rw [hself]
      by_cases hnil : list.filter p = []
      · rw [if_pos hnil, listAt_nonempty, hnil]
        unfold listAt
        rw [Option.bind_some, Option.bind_some, Std.ExtTreeMap.getElem?_erase]
        simp only [Std.LawfulEqCmp.compare_eq_iff_eq]
        split_ifs <;> rfl
      · rw [if_neg hnil, listAt_insert]

end

/-! ## The operations -/

variable [Std.LawfulEqOrd κ₁] {t : Buckets κ₁ κ₂ β}

omit [Std.LawfulEqOrd κ₂] [Std.LawfulEqOrd κ₁] in
theorem Full.push (h : Full t) (key : κ₁ × κ₂) (b : β) : Full (t.push key b) := by
  refine h.alter key.1 fun inner hinner => ?_
  obtain rfl := Option.some.inj hinner
  refine FullAt.insert (fun k => ?_) key.2 (by simp)
  cases hinner : t[key.1]? with
  | none =>
    rw [Option.getD_none, Std.ExtTreeMap.getElem?_empty]
    exact fun h => nomatch h
  | some inner => exact (h key.1 inner hinner).lists k

omit [Std.LawfulEqOrd κ₁] in
theorem Full.update (h : Full t) (key : κ₁ × κ₂) {f : List β → List β}
    (hf : ∀ list, f list = [] → list = []) : Full (t.update key f) := by
  refine h.alter key.1 fun inner hinner => ?_
  obtain ⟨old, hold, rfl⟩ := Option.map_eq_some_iff.mp hinner
  exact (h key.1 old hold).modify key.2 hf

omit [Std.LawfulEqOrd κ₁] [Std.LawfulEqOrd κ₂] in
theorem Full.retain (h : Full t) (key : κ₁ × κ₂) (p : β → Bool) : Full (t.retain key p) := by
  refine h.alter key.1 fun inner hinner => ?_
  obtain ⟨old, hold, hretain⟩ := Option.bind_eq_some_iff.mp hinner
  exact fullAt_of_retainIn (h key.1 old hold) hretain

section

variable [DecidableEq κ₁] [DecidableEq κ₂] (t) (key key' : κ₁ × κ₂)

omit [Std.LawfulEqOrd κ₂] in
theorem bucket_alter {f : Option (ListMap κ₂ β) → Option (ListMap κ₂ β)} {list : List β}
    (hf : ∀ k, listAt (f t[key.1]?) k = if key.2 = k then list else listAt t[key.1]? k) :
    bucket (t.alter key.1 f) key' = if key = key' then list else bucket t key' := by
  unfold bucket
  rw [Std.ExtTreeMap.getElem?_alter]
  simp only [Std.LawfulEqCmp.compare_eq_iff_eq, Prod.ext_iff]
  by_cases h₁ : key.1 = key'.1
  · rw [if_pos h₁, hf, ← h₁]
    simp only [true_and]
  · rw [if_neg h₁, if_neg fun h => h₁ h.1]

theorem bucket_push (b : β) :
    bucket (push t key b) key' = if key = key' then bucket t key ++ [b] else bucket t key' := by
  refine bucket_alter t key key' fun k => ?_
  rw [listAt_insert]
  refine ite_congr rfl (fun _ => rfl) fun _ => ?_
  cases t[key.1]? with
  | none =>
    unfold listAt
    rw [Option.getD_none, Option.bind_some, Std.ExtTreeMap.getElem?_empty]
    rfl
  | some inner => rfl

theorem bucket_update {f : List β → List β} (hf : f [] = []) :
    bucket (update t key f) key' = if key = key' then f (bucket t key) else bucket t key' :=
  bucket_alter t key key' fun k => listAt_modify _ key.2 k hf

theorem bucket_retain (p : β → Bool) :
    bucket (retain t key p) key' = if key = key' then (bucket t key).filter p else bucket t key' :=
  bucket_alter t key key' fun k => listAt_retainIn _ key.2 k p

end

theorem bucket_mapLists (t : Buckets κ₁ κ₂ β) (key : κ₁ × κ₂) {f : List β → List β}
    (hf : f [] = []) : bucket (t.mapLists f) key = f (bucket t key) := by
  unfold bucket mapLists listAt
  rw [Std.ExtTreeMap.getElem?_map]
  cases t[key.1]? with
  | none => exact hf.symm
  | some inner =>
    rw [Option.map_some, Option.bind_some, Option.bind_some, Std.ExtTreeMap.getElem?_map]
    cases inner[key.2]? with
    | none => exact hf.symm
    | some list => rfl

theorem Full.mapLists (h : Full t) {f : List β → List β} (hf : ∀ list, f list = [] → list = []) :
    Full (t.mapLists f) := by
  intro k inner hk
  unfold Buckets.mapLists at hk
  rw [Std.ExtTreeMap.getElem?_map] at hk
  obtain ⟨old, hold, rfl⟩ := Option.map_eq_some_iff.mp hk
  have hfull := h k old hold
  refine ⟨fun hempty => hfull.ne_empty (Std.ExtTreeMap.ext_getElem? fun k₂ => ?_), fun k₂ => ?_⟩
  · have hnone : (old.map fun _ list => f list)[k₂]? = none := by
      rw [hempty, Std.ExtTreeMap.getElem?_empty]
    rw [Std.ExtTreeMap.getElem?_map] at hnone
    rw [Option.map_eq_none_iff.mp hnone, Std.ExtTreeMap.getElem?_empty]
  · rw [Std.ExtTreeMap.getElem?_map]
    intro hnil
    obtain ⟨list, hlist, hf'⟩ := Option.map_eq_some_iff.mp hnil
    exact hfull.lists k₂ (hf list hf' ▸ hlist)

/-! ## Many changes -/

/-- Appends under many keys. -/
theorem bucket_foldl_push [DecidableEq κ₁] [DecidableEq κ₂] (entries : List ((κ₁ × κ₂) × β)) :
    ∀ (t : Buckets κ₁ κ₂ β) (key : κ₁ × κ₂),
      bucket (entries.foldl (fun t entry => t.push entry.1 entry.2) t) key =
        bucket t key ++ (entries.filter fun entry => entry.1 = key).map Prod.snd := by
  induction entries with
  | nil => intro t key; simp
  | cons entry entries ih =>
    intro t key
    rw [List.foldl_cons, ih, bucket_push, List.filter_cons]
    by_cases h : entry.1 = key
    · rw [if_pos h, if_pos (by simpa using h), h]
      simp
    · rw [if_neg h, if_neg (by simpa using h)]

omit [Std.LawfulEqOrd κ₂] [Std.LawfulEqOrd κ₁] in
theorem Full.foldl_push (entries : List ((κ₁ × κ₂) × β)) : ∀ {t : Buckets κ₁ κ₂ β}, Full t →
    Full (entries.foldl (fun t entry => t.push entry.1 entry.2) t) := by
  induction entries with
  | nil => exact fun h => h
  | cons entry entries ih => exact fun h => ih (h.push entry.1 entry.2)

omit [Std.LawfulEqOrd κ₂] [Std.LawfulEqOrd κ₁] in
/-- Changes under many keys, each of which concerns its own bucket. -/
theorem bucket_foldl [DecidableEq κ₁] [DecidableEq κ₂]
    {change : Buckets κ₁ κ₂ β → κ₁ × κ₂ → Buckets κ₁ κ₂ β} {f : List β → List β}
    (h : ∀ t key key', bucket (change t key) key' = if key = key' then f (bucket t key) else
      bucket t key')
    {keys : List (κ₁ × κ₂)} (hkeys : keys.Nodup) :
    ∀ (t : Buckets κ₁ κ₂ β) (key : κ₁ × κ₂),
      (key ∈ keys → bucket (keys.foldl change t) key = f (bucket t key)) ∧
        (key ∉ keys → bucket (keys.foldl change t) key = bucket t key) := by
  induction keys with
  | nil => exact fun t key => ⟨fun h => absurd h List.not_mem_nil, fun _ => rfl⟩
  | cons first keys ih =>
    intro t key
    rw [List.nodup_cons] at hkeys
    obtain ⟨hin, hout⟩ := ih hkeys.2 (change t first) key
    rw [List.foldl_cons, List.mem_cons]
    by_cases hfirst : first = key
    · subst hfirst
      refine ⟨fun _ => ?_, fun hnot => absurd (.inl rfl) hnot⟩
      rw [hout hkeys.1, h, if_pos rfl]
    · rw [h, if_neg hfirst] at hin hout
      exact ⟨fun hmem => hin (hmem.resolve_left (Ne.symm hfirst)),
        fun hnot => hout (not_or.mp hnot).2⟩

omit [Std.LawfulEqOrd κ₂] [Std.LawfulEqOrd κ₁] in
theorem Full.foldl {change : Buckets κ₁ κ₂ β → κ₁ × κ₂ → Buckets κ₁ κ₂ β}
    (hchange : ∀ t key, Full t → Full (change t key)) (keys : List (κ₁ × κ₂)) :
    ∀ {t : Buckets κ₁ κ₂ β}, Full t → Full (keys.foldl change t) := by
  induction keys with
  | nil => exact fun h => h
  | cons key keys ih => exact fun h => ih (hchange _ key h)

/-! ## Equal buckets -/

/-- Full maps are determined by their buckets. -/
theorem Full.ext {t' : Buckets κ₁ κ₂ β} (h : Full t) (h' : Full t')
    (hbucket : ∀ key, bucket t key = bucket t' key) : t = t' := by
  have hlist : ∀ (k₁ : κ₁) (k₂ : κ₂), listAt t[k₁]? k₂ = listAt t'[k₁]? k₂ := fun k₁ k₂ =>
    hbucket (k₁, k₂)
  -- a map of the second level has a list, so both have one or none has
  have hempty : ∀ {inner : ListMap κ₂ β}, FullAt inner →
      (∀ k₂, listAt (some inner) k₂ = []) → False := by
    intro inner hinner hnil
    refine hinner.ne_empty (Std.ExtTreeMap.ext_getElem? fun k₂ => ?_)
    rw [hinner.getElem?, if_pos (hnil k₂), Std.ExtTreeMap.getElem?_empty]
  apply Std.ExtTreeMap.ext_getElem?
  intro k₁
  cases hinner : t[k₁]? with
  | none =>
    cases hinner' : t'[k₁]? with
    | none => rfl
    | some inner' =>
      refine (hempty (h' k₁ inner' hinner') fun k₂ => ?_).elim
      have hsame := hlist k₁ k₂
      rw [hinner, hinner'] at hsame
      exact hsame.symm
  | some inner =>
    cases hinner' : t'[k₁]? with
    | none =>
      refine (hempty (h k₁ inner hinner) fun k₂ => ?_).elim
      have hsame := hlist k₁ k₂
      rw [hinner, hinner'] at hsame
      exact hsame
    | some inner' =>
      refine congrArg some (Std.ExtTreeMap.ext_getElem? fun k₂ => ?_)
      have hsame := hlist k₁ k₂
      rw [hinner, hinner'] at hsame
      rw [(h k₁ inner hinner).getElem?, (h' k₁ inner' hinner').getElem?, hsame]

/-! ## All lists in order -/

section Flat

variable {κ ρ γ : Type} [Ord κ] [Std.TransOrd κ] [Std.LawfulEqOrd κ]

/-- What one key gives, where the other keys give nothing. -/
theorem flatMap_of_key (m : Std.ExtTreeMap κ ρ) (k : κ) (f : κ × ρ → List γ)
    (h : ∀ p ∈ m.toList, p.1 ≠ k → f p = []) : m.toList.flatMap f = (m[k]?).elim [] fun x =>
      f (k, x) := by
  cases hk : m[k]? with
  | none =>
    refine List.flatMap_eq_nil_iff.mpr fun p hp => h p hp ?_
    rintro rfl
    rw [Std.ExtTreeMap.mem_toList_iff_getElem?_eq_some.mp hp] at hk
    cases hk
  | some x =>
    have hkeys : m.toList.Pairwise fun p q => p.1 ≠ q.1 := by
      refine m.distinct_keys_toList.imp fun hne heq => hne ?_
      rw [heq, Std.ReflOrd.compare_self]
    obtain ⟨front, back, hsplit⟩ :=
      List.append_of_mem (Std.ExtTreeMap.mem_toList_iff_getElem?_eq_some.mpr hk)
    rw [hsplit] at hkeys h
    obtain ⟨-, hback, hfront⟩ := List.pairwise_append.mp hkeys
    have hfrontNil : front.flatMap f = [] := List.flatMap_eq_nil_iff.mpr fun p hp =>
      h p (List.mem_append_left _ hp) (hfront p hp (k, x) List.mem_cons_self)
    have hbackNil : back.flatMap f = [] := List.flatMap_eq_nil_iff.mpr fun p hp =>
      h p (List.mem_append_right _ (List.mem_cons_of_mem _ hp))
        ((List.pairwise_cons.mp hback).1 p hp).symm
    rw [hsplit, List.flatMap_append, List.flatMap_cons, hfrontNil, hbackNil, List.nil_append,
      List.append_nil]
    rfl

end Flat

variable [DecidableEq κ₁] [DecidableEq κ₂]

/-- The elements that have one key, where every element has the key of its list. -/
theorem filter_toList {γ : Type} (t : Buckets κ₁ κ₂ β) (key : κ₁ × κ₂) {f : β → Option γ}
    {keyOf : γ → κ₁ × κ₂} (h : ∀ known, ∀ b ∈ t.bucket known, ∀ c, f b = some c → keyOf c = known) :
    ((t.toList.flatMap fun p => p.2.toList.flatMap Prod.snd).filterMap f).filter
      (fun c => decide (keyOf c = key)) = (t.bucket key).filterMap f := by
  have hat : ∀ (k₁ : κ₁) (inner : ListMap κ₂ β), t[k₁]? = some inner → ∀ (k₂ : κ₂) (list : List β),
      inner[k₂]? = some list → t.bucket (k₁, k₂) = list := by
    intro k₁ inner hinner k₂ list hlist
    unfold bucket listAt
    dsimp only
    rw [hinner, Option.bind_some, hlist]
    rfl
  rw [List.filterMap_flatMap, List.filter_flatMap, flatMap_of_key t key.1]
  · cases hinner : t[key.1]? with
    | none =>
      unfold bucket listAt
      rw [hinner]
      rfl
    | some inner =>
      rw [Option.elim_some, List.filterMap_flatMap, List.filter_flatMap, flatMap_of_key inner key.2]
      · cases hlist : inner[key.2]? with
        | none =>
          unfold bucket listAt
          rw [hinner, Option.bind_some, hlist]
          rfl
        | some list =>
          have hbucket := hat key.1 inner hinner key.2 list hlist
          rw [Option.elim_some, hbucket]
          refine List.filter_eq_self.mpr fun c hc => ?_
          obtain ⟨b, hb, hf⟩ := List.mem_filterMap.mp hc
          rw [← hbucket] at hb
          exact decide_eq_true (h key b hb c hf)
      · intro q hq hne
        refine List.filter_eq_nil_iff.mpr fun c hc hkey => hne ?_
        obtain ⟨b, hb, hf⟩ := List.mem_filterMap.mp hc
        have hlist := Std.ExtTreeMap.mem_toList_iff_getElem?_eq_some.mp hq
        rw [← hat key.1 inner hinner q.1 q.2 hlist] at hb
        exact (congrArg Prod.snd ((h _ b hb c hf).symm.trans (of_decide_eq_true hkey)))
  · intro p hp hne
    refine List.filter_eq_nil_iff.mpr fun c hc hkey => hne ?_
    obtain ⟨b, hb, hf⟩ := List.mem_filterMap.mp hc
    obtain ⟨q, hq, hb⟩ := List.mem_flatMap.mp hb
    have hinner := Std.ExtTreeMap.mem_toList_iff_getElem?_eq_some.mp hp
    have hlist := Std.ExtTreeMap.mem_toList_iff_getElem?_eq_some.mp hq
    rw [← hat p.1 p.2 hinner q.1 q.2 hlist] at hb
    exact (congrArg Prod.fst ((h _ b hb c hf).symm.trans (of_decide_eq_true hkey)))

end Buckets

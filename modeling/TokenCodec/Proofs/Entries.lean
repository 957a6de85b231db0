import Mathlib.Data.List.Induction
import TokenCodec.Entries

/-!
# Maps by their last values

Inserting pairs one after the other leaves each key where it first stood, with
the value that came last.  That map is described here without any insertion:
its keys are the distinct keys of the pairs in their order, and the value at a
key is the last one given for it.
-/

namespace TokenCodec.Entries

variable {κ α : Type}

/-- The last value at a key. -/
def lastAt [BEq κ] (key : κ) (pairs : List (κ × α)) : Option α :=
  (pairs.filter (·.1 == key)).getLast?.map Prod.snd

/-- Each key of a list that has a value, as a pair with the value. -/
def tabulate (keys : List κ) (value : κ → Option α) : List (κ × α) :=
  keys.filterMap fun key => (value key).map (key, ·)

theorem key_of_mem_tabulate {keys : List κ} {value : κ → Option α} {pair : κ × α}
    (hmem : pair ∈ tabulate keys value) : pair.1 ∈ keys := by
  obtain ⟨key, hkey, hpair⟩ := List.mem_filterMap.mp hmem
  obtain ⟨found, -, rfl⟩ := Option.map_eq_some_iff.mp hpair
  exact hkey

/-- Only the values at the listed keys matter. -/
theorem tabulate_congr {keys : List κ} {value other : κ → Option α}
    (hsame : ∀ key ∈ keys, value key = other key) : tabulate keys value = tabulate keys other := by
  induction keys with
  | nil => rfl
  | cons key keys ih =>
      have hrest := ih fun later hmem => hsame later (List.mem_cons_of_mem _ hmem)
      rw [tabulate, tabulate] at hrest
      rw [tabulate, tabulate, List.filterMap_cons, List.filterMap_cons,
        hsame key List.mem_cons_self, hrest]

variable [BEq κ] [LawfulBEq κ]

theorem eraseDups_concat (keys : List κ) (key : κ) :
    (keys ++ [key]).eraseDups =
      if key ∈ keys then keys.eraseDups else keys.eraseDups ++ [key] := by
  rw [List.eraseDups_append]
  by_cases hmem : key ∈ keys <;> simp [List.removeAll, List.eraseDups_cons, hmem]

theorem nodup_eraseDups (keys : List κ) : keys.eraseDups.Nodup := by
  induction keys using List.reverseRecOn with
  | nil => simp
  | append_singleton keys key ih =>
      rw [eraseDups_concat]
      by_cases hmem : key ∈ keys
      · rwa [if_pos hmem]
      · rw [if_neg hmem, List.nodup_append]
        refine ⟨ih, List.pairwise_singleton _ _, ?_⟩
        rintro other hother _ hkey rfl
        cases List.mem_singleton.mp hkey
        exact hmem (List.mem_eraseDups.mp hother)

theorem lastAt_concat (key other : κ) (value : α) (pairs : List (κ × α)) :
    lastAt other (pairs ++ [(key, value)]) =
      if other == key then some value else lastAt other pairs := by
  by_cases heq : other = key
  · subst heq
    simp [lastAt]
  · have hne : key ≠ other := Ne.symm heq
    simp [lastAt, heq, hne]

theorem lastAt_ne_none {key : κ} {pairs : List (κ × α)} (hmem : key ∈ pairs.map Prod.fst) :
    lastAt key pairs ≠ none := by
  obtain ⟨pair, hpair, rfl⟩ := List.mem_map.mp hmem
  have hfound : pair ∈ pairs.filter (·.1 == pair.1) :=
    List.mem_filter.mpr ⟨hpair, beq_self_eq_true _⟩
  intro hnone
  rw [lastAt, Option.map_eq_none_iff, List.getLast?_eq_none_iff] at hnone
  rw [hnone] at hfound
  cases hfound

theorem distinct_tabulate {keys : List κ} (hkeys : keys.Nodup) (value : κ → Option α) :
    Distinct (tabulate keys value) := by
  induction keys with
  | nil => exact .nil
  | cons key keys ih =>
      obtain ⟨hnew, hrest⟩ := List.nodup_cons.mp hkeys
      cases hvalue : value key with
      | none => simpa [tabulate, hvalue] using ih hrest
      | some found =>
          have htabulate : tabulate (key :: keys) value = (key, found) :: tabulate keys value := by
            simp [tabulate, hvalue]
          rw [htabulate]
          refine List.pairwise_cons.mpr ⟨fun pair hmem => beq_false_of_ne ?_, ih hrest⟩
          rintro (rfl : key = pair.1)
          exact hnew (key_of_mem_tabulate hmem)

/-- The keys of pairs in the order of their first occurrence, each with its last
value. -/
def ofLast (pairs : List (κ × α)) : Entries κ α where
  toList := tabulate (pairs.map Prod.fst).eraseDups (lastAt · pairs)
  distinct := distinct_tabulate (nodup_eraseDups _) _

/-- Binding a key that is in a table changes its value there. -/
theorem put_tabulate {keys : List κ} (hkeys : keys.Nodup) {key : κ} (hmem : key ∈ keys)
    {value : κ → Option α} (hvalue : value key ≠ none) (found : α) :
    put key found (tabulate keys value) =
      tabulate keys fun other => if other == key then some found else value other := by
  induction keys with
  | nil => cases hmem
  | cons first keys ih =>
      obtain ⟨hnew, hrest⟩ := List.nodup_cons.mp hkeys
      by_cases heq : first = key
      · subst heq
        obtain ⟨held, hheld⟩ := Option.ne_none_iff_exists'.mp hvalue
        have hothers : tabulate keys value =
            tabulate keys fun other => if other == first then some found else value other := by
          apply tabulate_congr
          intro other hother
          rw [if_neg]
          intro heq
          exact hnew (eq_of_beq heq ▸ hother)
        rw [tabulate, tabulate] at hothers
        simp [tabulate, hheld, put, hothers]
      · have hlater : key ∈ keys := (List.mem_cons.mp hmem).resolve_left (Ne.symm heq)
        have hothers := ih hrest hlater
        rw [tabulate, tabulate] at hothers
        cases hfirst : value first <;> simp [tabulate, hfirst, heq, put, hothers]

/-- Inserting pairs in order gives the map of their last values. -/
theorem ofList_eq_ofLast (pairs : List (κ × α)) : ofList pairs = ofLast pairs := by
  apply ext
  induction pairs using List.reverseRecOn with
  | nil => rfl
  | append_singleton pairs pair ih =>
      obtain ⟨key, value⟩ := pair
      have hinsert : (ofList (pairs ++ [(key, value)])).toList =
          put key value (ofList pairs).toList := by
        rw [ofList, List.foldl_append]
        rfl
      have hlast : (ofLast (pairs ++ [(key, value)])).toList =
          tabulate (pairs.map Prod.fst ++ [key]).eraseDups
            fun other => if other == key then some value else lastAt other pairs := by
        have hkeys : (pairs ++ [(key, value)]).map Prod.fst = pairs.map Prod.fst ++ [key] :=
          List.map_append
        rw [← hkeys]
        exact tabulate_congr fun other _ => lastAt_concat key other value pairs
      rw [hinsert, ih, hlast, eraseDups_concat]
      by_cases hmem : key ∈ pairs.map Prod.fst
      · rw [if_pos hmem]
        exact put_tabulate (nodup_eraseDups _) (List.mem_eraseDups.mpr hmem)
          (lastAt_ne_none hmem) value
      · have hne (other : κ) (hother : other ∈ (pairs.map Prod.fst).eraseDups) : other ≠ key := by
          rintro rfl
          exact hmem (List.mem_eraseDups.mp hother)
        have hnew : ∀ pair ∈ (ofLast pairs).toList, (pair.1 == key) = false :=
          fun pair hpair => beq_false_of_ne (hne pair.1 (key_of_mem_tabulate hpair))
        have hothers : (ofLast pairs).toList = tabulate (pairs.map Prod.fst).eraseDups
            fun other => if other == key then some value else lastAt other pairs := by
          apply tabulate_congr
          intro other hother
          rw [if_neg (by simpa using hne other hother)]
        rw [if_neg hmem, put_of_new hnew, hothers]
        simp [tabulate]

end TokenCodec.Entries

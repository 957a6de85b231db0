/-!
# Maps in insertion order

A map that lists its keys in the order of their first insertion.  Inserting a
key that is present replaces the value and nothing else: the key keeps its
position and its first spelling.  A key stands in a map at most once, which is
part of the type.
-/

namespace TokenCodec

namespace Entries

variable {κ α : Type} [BEq κ]

/-- No two pairs have the same key. -/
def Distinct (pairs : List (κ × α)) : Prop :=
  pairs.Pairwise fun earlier later => (earlier.1 == later.1) = false

/-- Replace the value at a key of the list, or append the pair. -/
def put (key : κ) (value : α) : List (κ × α) → List (κ × α)
  | [] => [(key, value)]
  | (other, held) :: rest =>
      if other == key then (other, value) :: rest
      else (other, held) :: put key value rest

theorem key_of_mem_put {key : κ} {value : α} {pairs : List (κ × α)} {pair : κ × α}
    (hmem : pair ∈ put key value pairs) :
    pair.1 = key ∨ ∃ held, (pair.1, held) ∈ pairs := by
  induction pairs with
  | nil => exact .inl (by simp_all [put])
  | cons head rest ih =>
      obtain ⟨other, held⟩ := head
      by_cases h : other == key
      · rw [put, if_pos h] at hmem
        rcases List.mem_cons.mp hmem with rfl | hrest
        · exact .inr ⟨held, List.mem_cons_self⟩
        · exact .inr ⟨pair.2, List.mem_cons_of_mem _ hrest⟩
      · rw [put, if_neg h] at hmem
        rcases List.mem_cons.mp hmem with rfl | hrest
        · exact .inr ⟨held, List.mem_cons_self⟩
        · rcases ih hrest with hkey | ⟨found, hfound⟩
          · exact .inl hkey
          · exact .inr ⟨found, List.mem_cons_of_mem _ hfound⟩

theorem Distinct.put {pairs : List (κ × α)} (hdistinct : Distinct pairs) (key : κ)
    (value : α) : Distinct (Entries.put key value pairs) := by
  induction pairs with
  | nil => exact List.pairwise_singleton _ _
  | cons head rest ih =>
      obtain ⟨other, held⟩ := head
      obtain ⟨hhead, hrest⟩ := List.pairwise_cons.mp hdistinct
      by_cases h : other == key
      · rw [Entries.put, if_pos h]
        exact List.pairwise_cons.mpr ⟨hhead, hrest⟩
      · rw [Entries.put, if_neg h]
        refine List.pairwise_cons.mpr ⟨fun pair hmem => ?_, ih hrest⟩
        rcases key_of_mem_put hmem with hkey | ⟨found, hfound⟩
        · simpa [hkey] using h
        · exact hhead (pair.1, found) hfound

/-- A key that is not in the list goes to its end. -/
theorem put_of_new {key : κ} {pairs : List (κ × α)}
    (hnew : ∀ pair ∈ pairs, (pair.1 == key) = false) (value : α) :
    put key value pairs = pairs ++ [(key, value)] := by
  induction pairs with
  | nil => rfl
  | cons head rest ih =>
      have hhead := hnew head List.mem_cons_self
      have hrest := ih fun pair hmem => hnew pair (List.mem_cons_of_mem _ hmem)
      simp [put, hhead, hrest]

end Entries

/-- Key and value pairs, a key at most once, in the order of first insertion. -/
structure Entries (κ α : Type) [BEq κ] where
  /-- The pairs in order. -/
  toList : List (κ × α)
  /-- A key stands in the list at most once. -/
  distinct : Entries.Distinct toList
  deriving DecidableEq, Repr

namespace Entries

variable {κ α β : Type} [BEq κ]

@[ext]
theorem ext {left right : Entries κ α} (hpairs : left.toList = right.toList) :
    left = right := by
  cases left
  cases right
  cases hpairs
  rfl

/-- The map without keys. -/
def empty : Entries κ α := ⟨[], List.Pairwise.nil⟩

/-- Bind a key to a value. -/
def insert (entries : Entries κ α) (key : κ) (value : α) : Entries κ α :=
  ⟨put key value entries.toList, entries.distinct.put key value⟩

/-- The value at a key. -/
def get? (entries : Entries κ α) (key : κ) : Option α :=
  (entries.toList.find? fun entry => entry.1 == key).map Prod.snd

/-- The keys in order. -/
def keys (entries : Entries κ α) : List κ := entries.toList.map Prod.fst

/-- Insert the pairs of a list one after the other. -/
def ofList (pairs : List (κ × α)) : Entries κ α :=
  pairs.foldl (fun entries pair => entries.insert pair.1 pair.2) empty

/-- Inserting pairs with keys of their own behind a map appends them. -/
theorem toList_foldl_insert (entries : Entries κ α) {pairs : List (κ × α)}
    (hdistinct : Distinct (entries.toList ++ pairs)) :
    (pairs.foldl (fun entries pair => entries.insert pair.1 pair.2) entries).toList =
      entries.toList ++ pairs := by
  induction pairs generalizing entries with
  | nil => simp
  | cons pair pairs ih =>
      have hnew : ∀ other ∈ entries.toList, (other.1 == pair.1) = false :=
        fun other hmem =>
          (List.pairwise_append.mp hdistinct).2.2 other hmem pair List.mem_cons_self
      have hinsert : (entries.insert pair.1 pair.2).toList = entries.toList ++ [pair] :=
        put_of_new hnew pair.2
      rw [List.foldl_cons, ih]
      · rw [hinsert, List.append_assoc, List.singleton_append]
      · rwa [hinsert, List.append_assoc, List.singleton_append]

/-- A map is what inserting its pairs in order gives. -/
@[simp]
theorem ofList_toList (entries : Entries κ α) : ofList entries.toList = entries :=
  ext (toList_foldl_insert empty (by simpa [empty] using entries.distinct))

end Entries

end TokenCodec

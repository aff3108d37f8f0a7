/-!
# Tables in order of first entry

A `Table` maps names to values and lists its names in the order in which they first came in:
putting a name again replaces its value and keeps its place. Symbol tables and the locals of a
stack frame are tables. The lemmas say what each operation does to the two views of a table, the
lookup `find?` and the list `names`.
-/

namespace Primer

universe u

/-- A finite map from names, listed in the order in which the names first came in. -/
structure Table (α : Type u) where
  entries : List (String × α) := []
deriving Repr, DecidableEq

namespace Table

variable {α : Type u}

/-- The table without names. -/
def empty : Table α := {}

/-- The names, first come first. -/
def names (table : Table α) : List String := table.entries.map Prod.fst

/-- How many names the table holds. -/
def size (table : Table α) : Nat := table.entries.length

/-- The value that stands beside a name in a list of entries. -/
def lookup (name : String) : List (String × α) → Option α
  | [] => none
  | (other, value) :: rest => if other = name then some value else lookup name rest

/-- Replace the value beside a name where it stands, or put the name at the end. -/
def put (name : String) (value : α) : List (String × α) → List (String × α)
  | [] => [(name, value)]
  | (other, old) :: rest =>
    if other = name then (other, value) :: rest else (other, old) :: put name value rest

/-- The value of a name, if the table holds it. -/
def find? (table : Table α) (name : String) : Option α := lookup name table.entries

/-- Give a name a value. A name that is already there keeps its place. -/
def insert (table : Table α) (name : String) (value : α) : Table α :=
  ⟨put name value table.entries⟩

/-- Take a name out of the table. -/
def erase (table : Table α) (name : String) : Table α :=
  ⟨table.entries.filter fun entry => entry.1 ≠ name⟩

/-- Change every value, keeping names and order. The function sees only the value. -/
def map (f : α → α) (table : Table α) : Table α :=
  ⟨table.entries.map fun entry => (entry.1, f entry.2)⟩

/-- The values, in the order of their names. -/
def values (table : Table α) : List α := table.entries.map Prod.snd

/-! ## What the operations do to lookups and names -/

@[simp] theorem find?_empty (name : String) : (empty : Table α).find? name = none := rfl

@[simp] theorem names_empty : (empty : Table α).names = [] := rfl

/-- A name has the value that was put to it last; all other names keep theirs. -/
theorem lookup_put (name other : String) (value : α) (entries : List (String × α)) :
    lookup other (put name value entries) =
      if name = other then some value else lookup other entries := by
  induction entries with
  | nil => simp [put, lookup]
  | cons entry rest ih =>
    obtain ⟨key, old⟩ := entry
    by_cases same : key = name
    · subst same
      by_cases hit : key = other <;> simp [put, lookup, hit]
    · by_cases hit : key = other
      · subst hit
        simp [put, lookup, same, Ne.symm same]
      · simp [put, lookup, same, hit, ih]

/-- A lookup after an insertion finds the new value under its name and all else as before. -/
theorem find?_insert (table : Table α) (name other : String) (value : α) :
    (table.insert name value).find? other = if name = other then some value else table.find? other :=
  lookup_put name other value table.entries

theorem lookup_isSome_iff (name : String) (entries : List (String × α)) :
    (lookup name entries).isSome ↔ name ∈ entries.map Prod.fst := by
  induction entries with
  | nil => simp [lookup]
  | cons entry rest ih =>
    by_cases same : entry.1 = name
    · simp [lookup, same]
    · simp [lookup, same, ih, Ne.symm same]

/-- A table knows exactly the names it lists. -/
theorem find?_isSome_iff (table : Table α) (name : String) :
    (table.find? name).isSome ↔ name ∈ table.names :=
  lookup_isSome_iff name table.entries

/-- A new name comes last, and a known one stays where it is. -/
theorem map_fst_put (name : String) (value : α) (entries : List (String × α)) :
    (put name value entries).map Prod.fst =
      if name ∈ entries.map Prod.fst then entries.map Prod.fst
      else entries.map Prod.fst ++ [name] := by
  induction entries with
  | nil => simp [put]
  | cons entry rest ih =>
    by_cases same : entry.1 = name
    · simp [put, same]
    · simp only [put, same, if_false, List.map_cons, ih, List.mem_cons, Ne.symm same, false_or]
      split <;> simp

/-- An insertion leaves the names as they are, or adds the new one at the end. -/
theorem names_insert (table : Table α) (name : String) (value : α) :
    (table.insert name value).names =
      if name ∈ table.names then table.names else table.names ++ [name] :=
  map_fst_put name value table.entries

theorem mem_of_lookup {name : String} {value : α} {entries : List (String × α)}
    (found : lookup name entries = some value) : (name, value) ∈ entries := by
  induction entries with
  | nil => cases found
  | cons entry rest ih =>
    unfold lookup at found
    by_cases same : entry.1 = name
    · simp only [same, if_true, Option.some.injEq] at found
      rw [← same, ← found]
      exact List.mem_cons_self
    · simp only [same, if_false] at found
      exact List.mem_cons_of_mem entry (ih found)

/-- An entry of a list that names nothing twice is found by its name. -/
theorem lookup_of_mem {name : String} {value : α} {entries : List (String × α)}
    (apart : (entries.map Prod.fst).Nodup) (mem : (name, value) ∈ entries) :
    lookup name entries = some value := by
  induction entries with
  | nil => cases mem
  | cons entry rest ih =>
    obtain ⟨hfirst, hrest⟩ := List.nodup_cons.1 apart
    unfold lookup
    rcases List.mem_cons.1 mem with rfl | hmem
    · exact if_pos rfl
    · have hother : entry.1 ≠ name := by
        rintro rfl
        exact hfirst (List.mem_map.2 ⟨_, hmem, rfl⟩)
      rw [if_neg hother]
      exact ih hrest hmem

/-- A lookup in a table whose values were changed finds the changed value. -/
theorem find?_map (f : α → α) (table : Table α) (name : String) :
    (table.map f).find? name = (table.find? name).map f := by
  obtain ⟨entries⟩ := table
  unfold map find?
  induction entries with
  | nil => rfl
  | cons entry rest ih =>
    by_cases same : entry.1 = name
    · simp [lookup, same]
    · simpa [lookup, same] using ih

/-- A name that is not there is put at the end. -/
theorem put_of_missing {name : String} {entries : List (String × α)} (value : α)
    (missing : lookup name entries = none) : put name value entries = entries ++ [(name, value)] := by
  induction entries with
  | nil => rfl
  | cons entry rest ih =>
    unfold lookup at missing
    by_cases same : entry.1 = name
    · simp [same] at missing
    · simp only [same, if_false] at missing
      simp [put, same, ih missing]

/-- A view of the entries that does not tell the new value from the old one stays as it is. -/
theorem map_put_of_found {β : Type u} (view : String × α → β) {name : String} {value old : α}
    {entries : List (String × α)} (found : lookup name entries = some old)
    (alike : view (name, value) = view (name, old)) :
    (put name value entries).map view = entries.map view := by
  induction entries with
  | nil => cases found
  | cons entry rest ih =>
    unfold lookup at found
    by_cases same : entry.1 = name
    · simp only [same, if_true, Option.some.injEq] at found
      have hentry : entry = (name, old) := Prod.ext same found
      simp [put, hentry, alike]
    · simp only [same, if_false] at found
      simp [put, same, ih found]

/-- A name that stands at a position is given its new value there. -/
theorem put_eq_set {name : String} {old : α} {entries : List (String × α)} {position : Nat}
    (apart : (entries.map Prod.fst).Nodup) (here : entries[position]? = some (name, old))
    (value : α) : put name value entries = entries.set position (name, value) := by
  induction entries generalizing position with
  | nil => cases here
  | cons entry rest ih =>
    obtain ⟨hfirst, hrest⟩ := List.nodup_cons.1 apart
    cases position with
    | zero =>
      cases here
      simp [put]
    | succ position =>
      have hthere : rest[position]? = some (name, old) := here
      have hother : entry.1 ≠ name := by
        rintro rfl
        exact hfirst (List.mem_map.2 ⟨_, List.mem_of_getElem? hthere, rfl⟩)
      simp [put, hother, ih hrest hthere]

end Table

end Primer

import Primer.Memory.InPlace
import Primer.Proofs.Memory.Integers

/-!
# The directory of the globals

Beside the globals in their order stands a directory from names to positions. Every operation keeps
the two in step (`Directory.Sound`): the directory has exactly the names of the variables, each with
its position. So it finds what a search through all globals finds (`Sound.find?_eq`), and names,
positions and slots go with each other one to one (`Directory.Leads`).
-/

namespace Primer.Memory

/-- Searching for a key that no two items share finds the item that has it. -/
theorem find?_key_eq_some_iff {α κ : Type} [DecidableEq κ] {key : α → κ} {items : List α}
    (apart : (items.map key).Nodup) {here : κ} {item : α} :
    items.find? (fun item => key item = here) = some item ↔ item ∈ items ∧ key item = here := by
  constructor
  · intro hfound
    exact ⟨List.mem_of_find?_eq_some hfound, by simpa using List.find?_some hfound⟩
  · rintro ⟨hmem, rfl⟩
    cases hfound : items.find? fun other => key other = key item with
    | none =>
      have hmiss := List.find?_eq_none.1 hfound item hmem
      simp at hmiss
    | some other =>
      have hother : key other = key item := by simpa using List.find?_some hfound
      rw [List.inj_on_of_nodup_map apart (List.mem_of_find?_eq_some hfound) hmem hother]

theorem Globals.name_of_find? {globals : Globals} {name : String} {var : Global}
    (found : globals.find? name = some var) : var.name = name := by
  simpa using List.find?_some found

namespace Directory

/-- The variables lie in consecutive slots up to the next one, and the directory leads to each name
exactly where the variable of that name is. -/
structure Sound (directory : Directory) : Prop where
  laid : directory.globals.Laid
  next : directory.next = directory.globals.next
  index : ∀ {name position}, directory.index.find? name = some position ↔
    ∃ var, directory.vars[position]? = some var ∧ var.name = name

variable {directory : Directory} {name : String} {value : Value} {position : Nat} {var : Global}

namespace Sound

theorem empty : Sound {} where
  laid := .empty
  next := rfl
  index := by simp [Table.find?, Table.lookup]

theorem position_unique {other : Nat} {var' : Global} (sound : directory.Sound)
    (here : directory.vars[position]? = some var) (there : directory.vars[other]? = some var')
    (same : var'.name = var.name) : other = position := by
  have hhere := sound.index.2 ⟨var, here, rfl⟩
  have hthere := sound.index.2 ⟨var', there, same⟩
  exact Option.some.inj (hthere.symm.trans hhere)

theorem names_nodup (sound : directory.Sound) : (directory.vars.map Global.name).Nodup := by
  rw [List.nodup_iff_getElem?_ne_getElem?]
  intro first second hlt hsecond hsame
  rw [List.length_map] at hsecond
  have hfirst : first < directory.vars.length := Nat.lt_trans hlt hsecond
  have hnames : directory.vars[second].name = directory.vars[first].name := by
    simpa [hfirst, hsecond, eq_comm] using hsame
  have hposition := sound.position_unique (List.getElem?_eq_getElem hfirst)
    (List.getElem?_eq_getElem hsecond) hnames
  exact Nat.ne_of_gt hlt hposition

theorem find?_eq_some_iff (sound : directory.Sound) :
    directory.find? name = some var ↔ var ∈ directory.vars ∧ var.name = name := by
  refine Option.bind_eq_some_iff.trans ?_
  constructor
  · rintro ⟨position, hindex, hvar⟩
    obtain ⟨var', hvar', hname⟩ := sound.index.1 hindex
    obtain rfl : var' = var := Option.some.inj (hvar'.symm.trans hvar)
    exact ⟨List.mem_of_getElem? hvar, hname⟩
  · rintro ⟨hmem, hname⟩
    obtain ⟨position, hvar⟩ := List.mem_iff_getElem?.1 hmem
    exact ⟨position, sound.index.2 ⟨var, hvar, hname⟩, hvar⟩

/-- The directory finds the variable that a search through all of them finds. -/
theorem find?_eq (sound : directory.Sound) (name : String) :
    directory.find? name = directory.globals.find? name := by
  apply Option.ext
  intro var
  rw [sound.find?_eq_some_iff]
  exact (find?_key_eq_some_iff sound.names_nodup).symm

theorem isSome_index (sound : directory.Sound) (name : String) :
    (directory.index.find? name).isSome = (directory.globals.find? name).isSome := by
  rw [← sound.find?_eq]
  unfold Directory.find?
  cases hindex : directory.index.find? name with
  | none => rfl
  | some position =>
    obtain ⟨var, hvar, _⟩ := sound.index.1 hindex
    simp [hvar]

/-- The directory is right after a definition: the new name leads to the last position. -/
theorem define (sound : directory.Sound) (fresh : directory.index.find? name = none)
    (room : directory.next + wordSize ≤ heapStart) :
    Sound {
      vars := directory.vars ++ [⟨name, value, directory.next⟩]
      index := directory.index.insert name directory.vars.length
      next := directory.next + wordSize } := by
  have hfresh : directory.globals.find? name = none := by
    have hboth := sound.isSome_index name
    rw [fresh] at hboth
    simpa using hboth.symm
  have hnext := sound.next
  have hchange : directory.globals.Change
      ⟨directory.vars ++ [⟨name, value, directory.globals.next⟩]⟩ := .define hfresh (hnext ▸ room)
  have hlaid := sound.laid.change hchange
  refine ⟨hnext ▸ hlaid, ?_, ?_⟩
  · simp only [globals, Globals.next, Globals.size, List.length_append, List.length_singleton,
      Nat.mul_succ, ← Nat.add_assoc]
    rw [hnext]
    rfl
  · intro other position
    rw [Table.find?_insert]
    rcases Nat.lt_trichotomy position directory.vars.length with hlt | rfl | hgt
    · rw [List.getElem?_append_left hlt, ← sound.index]
      by_cases hname : name = other
      · subst hname
        simp [fresh, Nat.ne_of_gt hlt]
      · simp [hname]
    · by_cases hname : name = other
      · simp [hname]
      · have hold : directory.index.find? other ≠ some directory.vars.length := by
          intro hindex
          obtain ⟨var, hvar, _⟩ := sound.index.1 hindex
          simp at hvar
        simp [hname, hold]
    · have hnone : (directory.vars ++ [⟨name, value, directory.next⟩])[position]? = none := by
        apply List.getElem?_eq_none
        rw [List.length_append, List.length_singleton]
        exact hgt
      have hold : directory.index.find? other ≠ some position := by
        intro hindex
        obtain ⟨var, hvar, _⟩ := sound.index.1 hindex
        rw [List.getElem?_eq_none (Nat.le_of_lt hgt)] at hvar
        cases hvar
      rw [hnone]
      by_cases hname : name = other
      · simp [hname, Nat.ne_of_lt hgt]
      · simp [hname, hold]

theorem assign (sound : directory.Sound) (which : Global → Bool) (value : Value) :
    Sound { directory with vars := (directory.globals.assign which value).vars } := by
  have hsize : (directory.globals.assign which value).size = directory.globals.size :=
    List.length_map _
  refine ⟨sound.laid.change .assign, ?_, ?_⟩
  · have hnext := sound.next
    unfold Globals.next at hnext ⊢
    rw [← hsize] at hnext
    exact hnext
  · intro name position
    rw [sound.index]
    simp only [Globals.assign, globals, List.getElem?_map]
    cases directory.vars[position]? with
    | none => simp
    | some var => by_cases hwhich : which var <;> simp [hwhich]

/-- The position in the directory is the one that a search through the variables would come to. -/
theorem findIdx_eq (sound : directory.Sound)
    (found : directory.index.find? name = some position) :
    directory.vars.findIdx (fun var => var.name = name) = position := by
  obtain ⟨var, hvar, hname⟩ := sound.index.1 found
  have hlt : directory.vars.findIdx (fun var => var.name = name) < directory.vars.length :=
    List.findIdx_lt_length_of_exists ⟨var, List.mem_of_getElem? hvar, by simpa using hname⟩
  have hhit : directory.vars[directory.vars.findIdx fun var => var.name = name].name = name := by
    simpa using List.findIdx_getElem (p := fun var : Global => decide (var.name = name)) (w := hlt)
  exact sound.position_unique hvar (List.getElem?_eq_getElem hlt) (hhit.trans hname.symm)

end Sound

end Directory

/-- The directory leads from each defined name to the variable of that name, and from no other name
to anything. The variables lie in consecutive slots, in order of definition. -/
structure Directory.Leads (directory : Directory) (defined : List String) : Prop where
  apart : defined.Nodup
  names : directory.vars.map Global.name = defined
  index : ∀ name position,
    directory.index.find? name = some position ↔ defined[position]? = some name
  inside : ∀ name position, directory.index.find? name = some position →
    ∃ var, directory.vars[position]? = some var ∧ directory.find? name = some var
  slots : ∀ position var, directory.vars[position]? = some var →
    var.address = globalStart + wordSize * position
  found : ∀ name var, directory.find? name = some var →
    var.name = name ∧ directory.globals.at? var.address = some var

/-- The directory leads to every global by its name, and nowhere else. -/
theorem Directory.Sound.leads {directory : Directory} (sound : directory.Sound) :
    directory.Leads (directory.vars.map Global.name) where
  apart := sound.names_nodup
  names := rfl
  index name position := by
    rw [sound.index, List.getElem?_map, Option.map_eq_some_iff]
  inside name position hindex := by
    obtain ⟨var, hvar, _⟩ := sound.index.1 hindex
    exact ⟨var, hvar, Option.bind_eq_some_iff.2 ⟨position, hindex, hvar⟩⟩
  slots position var hvar := by
    have hslots := congrArg (·[position]?) sound.laid.slots
    obtain ⟨hlt, rfl⟩ := List.getElem?_eq_some_iff.1 hvar
    simpa [Directory.globals, Globals.size, hlt] using hslots
  found name var hfound := by
    rw [sound.find?_eq] at hfound
    have hmem := List.mem_of_find?_eq_some hfound
    exact ⟨Globals.name_of_find? hfound, (find?_key_eq_some_iff sound.laid.apart).2 ⟨hmem, rfl⟩⟩

end Primer.Memory

import Primer.Proofs.Lang.Symbols
import Primer.Proofs.Text.Lines

/-!
# What the rendered variables tell

A variable is rendered as its name, a colon, a space and its value in decimal. A decimal number has
no space in it, so the last space of a line tells the value from the name, whatever the name is
(`entryLine_injective`). Names without newlines make lines without newlines, so the text falls
apart into the lines of the variables again (`lines_render`). Together: the text determines the
variables.
-/

namespace Primer.Lang

open Primer.Text

/-! ## One variable -/

theorem isDigit_of_mem_repr {number : Nat} {char : Char} (member : char ∈ number.repr.toList) :
    char.isDigit = true := by
  rw [Nat.toList_repr] at member
  exact Nat.isDigit_of_mem_toDigits (by decide) (by decide) member

theorem digit_or_minus {value : Int} {char : Char} (member : char ∈ (toString value).toList) :
    char.isDigit = true ∨ char = '-' := by
  rw [Int.toString_eq_repr, Int.repr_eq_if] at member
  split at member
  · exact .inl (isDigit_of_mem_repr member)
  · rw [String.toList_append, List.mem_append] at member
    rcases member with hminus | hmem
    · exact .inr (List.mem_singleton.1 hminus)
    · exact .inl (isDigit_of_mem_repr hmem)

theorem not_mem_toString {char : Char} (value : Int) (other : char.isDigit = false)
    (unsigned : char ≠ '-') : char ∉ (toString value).toList := by
  intro hmem
  rcases digit_or_minus hmem with hdigit | hminus
  · rw [other] at hdigit
    cases hdigit
  · exact unsigned hminus

/-- Read back, the digits of a natural number give the number. -/
theorem eq_of_repr_eq {number number' : Nat} (same : number.repr.toList = number'.repr.toList) :
    number = number' := by
  rw [Nat.toList_repr, Nat.toList_repr] at same
  rw [← Nat.ofDigitChars_ten_toDigits (n := number), same, Nat.ofDigitChars_ten_toDigits]

/-- The text of a number determines the number: the digits tell its amount, and a minus, which is no
digit, tells its sign. -/
theorem eq_of_toString_eq {value value' : Int}
    (same : (toString value).toList = (toString value').toList) : value = value' := by
  have hsigned : ∀ number number' : Nat, number.repr.toList ≠ '-' :: number'.repr.toList :=
    fun number _ hminus => absurd (isDigit_of_mem_repr (hminus ▸ List.mem_cons_self)) (by decide)
  have htext : ∀ number : Nat, ("-" ++ number.repr).toList = '-' :: number.repr.toList :=
    fun _ => String.toList_append
  rw [Int.toString_eq_repr, Int.toString_eq_repr, Int.repr_eq_if, Int.repr_eq_if] at same
  split at same <;> split at same
  · have hamount := eq_of_repr_eq same
    omega
  · exact absurd (same.trans (htext _)) (hsigned _ _)
  · exact absurd (same.symm.trans (htext _)) (hsigned _ _)
  · rw [htext, htext] at same
    have hamount := eq_of_repr_eq (List.cons.inj same).2
    omega

/-- Nothing stands between two separators if none comes after either. -/
theorem eq_nil_of_last {α : Type} {separator : α} {back back' more : List α}
    (last : separator ∉ back) (same : separator :: back = more ++ separator :: back') :
    more = [] := by
  cases more with
  | nil => rfl
  | cons next more =>
    have hback : back = more ++ separator :: back' := (List.cons.inj same).2
    exact absurd (hback ▸ List.mem_append_right more List.mem_cons_self) last

/-- What stands before the last separator and what stands behind it is known from the whole. -/
theorem split_at_last {α : Type} {separator : α} {front front' back back' : List α}
    (last : separator ∉ back) (last' : separator ∉ back')
    (same : front ++ separator :: back = front' ++ separator :: back') :
    front = front' ∧ back = back' := by
  have hfront : front = front' := by
    rcases List.append_eq_append_iff.1 same with ⟨more, rfl, hback⟩ | ⟨more, rfl, hback⟩
    · rw [eq_nil_of_last last hback, List.append_nil]
    · rw [eq_nil_of_last last' hback, List.append_nil]
  subst hfront
  exact ⟨rfl, (List.cons.inj (List.append_cancel_left same)).2⟩

/-- The line of one variable. -/
def entryLine (entry : String × Int32) : String := entry.1 ++ ": " ++ toString entry.2.toInt

theorem toList_entryLine (entry : String × Int32) :
    (entryLine entry).toList =
      (entry.1.toList ++ [':']) ++ ' ' :: (toString entry.2.toInt).toList := by
  simp [entryLine]

/-- The line of a variable determines its name and its value, whatever characters the name has. -/
theorem entryLine_injective : Function.Injective entryLine := by
  rintro ⟨name, value⟩ ⟨name', value'⟩ same
  have hchars := congrArg String.toList same
  rw [toList_entryLine, toList_entryLine] at hchars
  obtain ⟨hname, hvalue⟩ := split_at_last (not_mem_toString _ (by decide) (by decide))
    (not_mem_toString _ (by decide) (by decide)) hchars
  have hnames : name = name' := String.toList_inj.1 (List.append_cancel_right hname)
  have hvalues : value = value' := Int32.toInt_inj.1 (eq_of_toString_eq hvalue)
  rw [hnames, hvalues]

/-- A line has a newline only if its name has one, and it ends in its value. -/
theorem entryLine_proper {entry : String × Int32} (undivided : '\n' ∉ entry.1.toList) :
    '\n' ∉ (entryLine entry).toList ∧ (entryLine entry).toList.getLast? ≠ some '\r' := by
  rw [toList_entryLine]
  constructor
  · simp only [List.mem_append, List.mem_cons]
    rintro ((hname | hcolon) | hspace | hvalue)
    · exact undivided hname
    · exact absurd hcolon (by decide)
    · exact absurd hspace (by decide)
    · exact not_mem_toString _ (by decide) (by decide) hvalue
  · rw [List.getLast?_append_of_ne_nil _ (List.cons_ne_nil _ _)]
    intro hlast
    rcases List.mem_cons.1 (List.mem_of_getLast? hlast) with hspace | hvalue
    · exact absurd hspace (by decide)
    · exact not_mem_toString _ (by decide) (by decide) hvalue

/-! ## All variables -/

theorem render_eq (machine : Machine) :
    machine.render = String.join ((machine.symbols.entries.map entryLine).map (· ++ "\n")) := by
  rw [List.map_map]
  rfl

theorem lines_render {machine : Machine}
    (undivided : ∀ name ∈ machine.symbols.names, '\n' ∉ name.toList) :
    lines machine.render = machine.symbols.entries.map entryLine := by
  rw [render_eq]
  refine lines_join fun line hline => ?_
  obtain ⟨entry, hentry, rfl⟩ := List.mem_map.1 hline
  exact entryLine_proper (undivided entry.1 (List.mem_map.2 ⟨entry, hentry, rfl⟩))

/-- The text determines the variables, their order and their values. -/
theorem entries_eq_of_render_eq {machine machine' : Machine}
    (undivided : ∀ name ∈ machine.symbols.names, '\n' ∉ name.toList)
    (undivided' : ∀ name ∈ machine'.symbols.names, '\n' ∉ name.toList)
    (same : machine.render = machine'.render) :
    machine.symbols.entries = machine'.symbols.entries := by
  have hlines : machine.symbols.entries.map entryLine = machine'.symbols.entries.map entryLine := by
    rw [← lines_render undivided, same, lines_render undivided']
  exact List.map_injective_iff.2 entryLine_injective hlines

/-- An interpreter renders the symbol table of the machine that it shows. -/
theorem Shows.render_eq {settings : Settings} {interpreter : Interpreter} {machine : Machine}
    (shows : Shows settings interpreter machine) : interpreter.render = .ok machine.render := by
  unfold Interpreter.render Interpreter.machine
  rw [shows.symbols_eq]
  rfl

/-- **The rendered variables determine the variables.** Let two interpreters with any settings run
any programs, whether these finish or not, and let no variable of theirs have a newline in its name;
a name may be empty, and it may have colons and spaces in it. An interpreter renders its variables
in order, each as one line that is ended by a newline and has no other newline in it, so the lines
of the text are those of the variables. If the two texts are the same, then so are the variables:
the names, their order and the values. -/
theorem rendering_determines_the_symbols (settings settings' : Settings)
    (programs programs' : List Stmt) :
    let interpreter := (settings.interpreter.runs programs).2
    let interpreter' := (settings'.interpreter.runs programs').2
    (∀ name ∈ interpreter.order, '\n' ∉ name.toList) →
    (∀ name ∈ interpreter'.order, '\n' ∉ name.toList) →
    (∃ text symbols, interpreter.render = .ok text ∧ interpreter.symbols = .ok symbols ∧
      symbols.map Prod.fst = interpreter.order ∧
      text = String.join (symbols.map fun entry => entryLine entry ++ "\n") ∧
      (∀ entry ∈ symbols, '\n' ∉ (entryLine entry).toList) ∧
      lines text = symbols.map entryLine) ∧
    (interpreter.render = interpreter'.render → interpreter.symbols = interpreter'.symbols) := by
  intro interpreter interpreter' hnames hnames'
  have hshows := (Follows.runs settings programs).shows
  have hshows' := (Follows.runs settings' programs').shows
  rw [hshows.order_eq] at hnames
  rw [hshows'.order_eq] at hnames'
  constructor
  · refine ⟨_, _, hshows.render_eq, hshows.symbols_eq, hshows.order_eq.symm, rfl, ?_,
      lines_render hnames⟩
    intro entry hentry
    exact (entryLine_proper (hnames entry.1 (List.mem_map_of_mem hentry))).1
  · intro hsame
    rw [hshows.render_eq, hshows'.render_eq, Except.ok.injEq] at hsame
    rw [hshows.symbols_eq, hshows'.symbols_eq, entries_eq_of_render_eq hnames hnames' hsame]

/-- Two ways to one text, by names with colons and spaces in them. -/
theorem two_ways_to_a_colon :
    let interpreter := ((Settings.interpreter {}).runs
      [.assign "a: 1" (.number 2), .assign "" (.number (-3))]).2
    let interpreter' := ((Settings.interpreter { loopLimit := 0, recordHistory := true }).runs
      [.assign "a: 1" (.number 7),
        .block [.assign "" (.number (-3)), .assign "a: 1" (.number 2)]]).2
    (∀ name ∈ interpreter.order, '\n' ∉ name.toList) ∧
      (∀ name ∈ interpreter'.order, '\n' ∉ name.toList) ∧
      interpreter.render = interpreter'.render ∧ interpreter.symbols = interpreter'.symbols := by
  intro interpreter interpreter'
  have hnames : ∀ name ∈ interpreter.order, '\n' ∉ name.toList := by decide +kernel
  have hnames' : ∀ name ∈ interpreter'.order, '\n' ∉ name.toList := by decide +kernel
  have hsame : interpreter.render = interpreter'.render := by rfl
  exact ⟨hnames, hnames', hsame,
    (rendering_determines_the_symbols _ _ _ _ hnames hnames').2 hsame⟩

end Primer.Lang

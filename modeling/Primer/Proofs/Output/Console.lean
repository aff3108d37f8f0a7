import Primer.Output.Console
import Primer.Proofs.Text.Lines
import Primer.Proofs.Text.WellFormed

/-!
# What a console holds

A single write adds all of its bytes if they are well-formed UTF-8 (`Console.write_of_encode`), and
otherwise nothing (`Console.write_of_error`); offering them again by `writeAll` makes no difference.
Every request therefore adds the bytes that its reply tells (`Console.encode_step`), and requests
one after another add theirs in order (`Console.encode_serve`). What is known of texts and their
lines is thereby known of a console that has served any requests.
-/

namespace Primer.Output

open Primer.Text
open Primer.Text.Utf8

/-! ## Single writes -/

namespace Console

@[simp] theorem encode_print (console : Console) (text : String) :
    encode (console.print text).text.toList = encode console.text.toList ++ encode text.toList := by
  simp [print]

theorem print_append (console : Console) (first second : String) :
    (console.print first).print second = console.print (first ++ second) := by
  simp [print, String.append_assoc]

/-- A write of well-formed bytes is taken whole and printed. -/
theorem write_of_encode {bytes : List UInt8} {chars : List Char} (encoded : encode chars = bytes)
    (console : Console) :
    (write bytes).attempt console = (.ok bytes.length, console.print (String.ofList chars)) := by
  unfold write
  rw [decode_eq_ok_iff.2 encoded]
  rfl

/-- A write of ill-formed bytes is refused and prints nothing. -/
theorem write_of_error {bytes : List UInt8} {cause : Utf8.Error}
    (refused : decode bytes = .error cause) (console : Console) :
    (write bytes).attempt console = (.error (.invalidText cause), console) := by
  unfold write
  rw [refused]
  exact Writing.attempt_throw _ console

/-- A console takes all or nothing, so there is nothing to offer again. -/
theorem writeAll_eq (bytes : List UInt8) (console : Console) :
    (writeAll bytes).attempt console =
      (((write bytes).attempt console).1.map fun _ => (), ((write bytes).attempt console).2) := by
  cases bytes with
  | nil =>
    rw [attempt_writeAll_nil, write_of_encode encode_nil]
    simp [print, Except.map]
  | cons first rest =>
    rw [attempt_writeAll_cons, sink_write]
    cases hdecode : decode (first :: rest) with
    | error cause =>
      rw [write_of_error hdecode]
      rfl
    | ok chars =>
      rw [write_of_encode (decode_eq_ok_iff.1 hdecode)]
      simp only [List.length_cons, List.drop_length, attempt_writeAll_nil, Except.map]

theorem step_of_encode {bytes : List UInt8} {chars : List Char} (encoded : encode chars = bytes)
    (console : Console) :
    console.step (.write bytes) = (.taken bytes.length, console.print (String.ofList chars)) ∧
      console.step (.writeAll bytes) = (.done, console.print (String.ofList chars)) := by
  simp only [step, writeAll_eq, write_of_encode encoded]
  exact ⟨rfl, rfl⟩

theorem step_of_error {bytes : List UInt8} {cause : Utf8.Error}
    (refused : decode bytes = .error cause) (console : Console) :
    console.step (.write bytes) = (.fault (.invalidText cause), console) ∧
      console.step (.writeAll bytes) = (.fault (.invalidText cause), console) := by
  simp only [step, writeAll_eq, write_of_error refused]
  exact ⟨rfl, rfl⟩

/-- By either request the bytes are added if they stand for characters, and refused otherwise. -/
theorem step_cases (console : Console) (bytes : List UInt8) :
    (∃ chars, encode chars = bytes ∧
        console.step (.write bytes) = (.taken bytes.length, console.print (String.ofList chars)) ∧
        console.step (.writeAll bytes) = (.done, console.print (String.ofList chars))) ∨
      ∃ cause, decode bytes = .error cause ∧
        console.step (.write bytes) = (.fault (.invalidText cause), console) ∧
        console.step (.writeAll bytes) = (.fault (.invalidText cause), console) := by
  cases hdecode : decode bytes with
  | ok chars =>
    have hchars := decode_eq_ok_iff.1 hdecode
    exact .inl ⟨chars, hchars, step_of_encode hchars console⟩
  | error cause => exact .inr ⟨cause, rfl, step_of_error hdecode console⟩

end Console

/-! ## Requests one after another -/

/-- The bytes that a request with a given reply has added: what was printed, and what was written
if the write succeeded. -/
def Request.added : Request → Reply → List UInt8
  | .print text, _ => encode text.toList
  | .write bytes, .taken _ => bytes
  | .writeAll bytes, .done => bytes
  | _, _ => []

/-- The bytes that requests with given replies have added, in order. -/
def accepted (requests : List Request) (replies : List Reply) : List UInt8 :=
  (List.zipWith Request.added requests replies).flatten

namespace Console

/-- A request adds to the text exactly the bytes that it reports as accepted. -/
theorem encode_step (console : Console) (request : Request) :
    encode (console.step request).2.text.toList =
      encode console.text.toList ++ request.added (console.step request).1 := by
  cases request with
  | print text => exact encode_print console text
  | write bytes =>
    rcases step_cases console bytes with ⟨chars, rfl, hstep, -⟩ | ⟨cause, -, hstep, -⟩
    · rw [hstep]
      simp [Request.added]
    · rw [hstep]
      simp [Request.added]
  | writeAll bytes =>
    rcases step_cases console bytes with ⟨chars, rfl, -, hstep⟩ | ⟨cause, -, -, hstep⟩
    · rw [hstep]
      simp [Request.added]
    · rw [hstep]
      simp [Request.added]
  | flush =>
    simp [step, step.reply, flush, Request.added]

/-- The text is what it was, with all accepted bytes in order behind it. -/
theorem encode_serve (console : Console) (requests : List Request) :
    encode (console.serve requests).2.text.toList =
      encode console.text.toList ++ accepted requests (console.serve requests).1 := by
  induction requests generalizing console with
  | nil => simp [serve, accepted]
  | cons request rest ih =>
    show encode (((console.step request).2).serve rest).2.text.toList = _
    rw [ih, encode_step, List.append_assoc]
    rfl

theorem length_serve (console : Console) (requests : List Request) :
    (console.serve requests).1.length = requests.length := by
  induction requests generalizing console with
  | nil => rfl
  | cons request rest ih => exact congrArg (· + 1) (ih _)

end Console

/-! ## Which writes succeed -/

theorem message_names_index (cause : Utf8.Error) :
    ∃ what, cause.message = what ++ " from index " ++ toString cause.validUpTo := by
  obtain ⟨index, length | _⟩ := cause
  · refine ⟨"invalid utf-8 sequence of " ++ toString length ++ " bytes", ?_⟩
    have hwords : " bytes" ++ " from index " = " bytes from index " := by decide
    simp only [Utf8.Error.message, ← hwords, String.append_assoc]
  · exact ⟨"incomplete utf-8 byte sequence", rfl⟩

namespace Console

/-- Bytes are taken if and only if they are well-formed. -/
theorem exists_step_taken_iff (console : Console) (bytes : List UInt8) :
    (∃ after, console.step (.write bytes) = (.taken bytes.length, after) ∧
        console.step (.writeAll bytes) = (.done, after)) ↔ WellFormed bytes := by
  constructor
  · rintro ⟨after, hwrite, -⟩
    rcases step_cases console bytes with ⟨chars, hchars, -⟩ | ⟨cause, -, hrefused, -⟩
    · exact ⟨chars, hchars⟩
    · rw [hrefused] at hwrite
      cases hwrite
  · rintro ⟨chars, hchars⟩
    exact ⟨_, step_of_encode hchars console⟩

/-- Bytes are refused if and only if they are ill-formed, with the length of their longest
well-formed front. -/
theorem exists_step_fault_iff (console : Console) (bytes : List UInt8) :
    (∃ cause, console.step (.write bytes) = (.fault (.invalidText cause), console) ∧
        console.step (.writeAll bytes) = (.fault (.invalidText cause), console) ∧
        IsGreatest {length | length ≤ bytes.length ∧ WellFormed (bytes.take length)}
          cause.validUpTo ∧
        ∃ what, cause.message = what ++ " from index " ++ toString cause.validUpTo) ↔
      ¬ WellFormed bytes := by
  constructor
  · rintro ⟨cause, hwrite, -⟩ ⟨chars, hchars⟩
    rw [(step_of_encode hchars console).1] at hwrite
    cases hwrite
  · intro hbad
    rcases step_cases console bytes with ⟨chars, hchars, -⟩ | ⟨cause, hcause, hwrite, hwriteAll⟩
    · exact absurd ⟨chars, hchars⟩ hbad
    · exact ⟨cause, hwrite, hwriteAll, isGreatest_validUpTo hcause, message_names_index cause⟩

/-- After a well-formed front it makes no difference whether the rest is written by itself, but for
the place where it is bad. -/
theorem step_append {front : List UInt8} (wellFormed : WellFormed front) (console : Console)
    (back : List UInt8) :
    let between := (console.step (.write front)).2
    (∃ after, between.step (.write back) = (.taken back.length, after) ∧
        console.step (.write (front ++ back)) = (.taken (front ++ back).length, after)) ∨
      ∃ cause : Utf8.Error,
        between.step (.write back) = (.fault (.invalidText cause), between) ∧
        console.step (.write (front ++ back)) =
          (.fault (.invalidText ⟨front.length + cause.validUpTo, cause.defect⟩), console) := by
  intro between
  obtain ⟨chars, hchars⟩ := wellFormed
  have hbetween : between = console.print (String.ofList chars) :=
    congrArg Prod.snd (step_of_encode hchars console).1
  have happend := decode_append hchars back
  cases hback : decode back with
  | ok more =>
    rw [hback] at happend
    refine .inl ⟨between.print (String.ofList more),
      (step_of_encode (decode_eq_ok_iff.1 hback) between).1, ?_⟩
    rw [(step_of_encode (decode_eq_ok_iff.1 happend) console).1, hbetween, print_append,
      String.ofList_append]
  | error cause =>
    rw [hback] at happend
    exact .inr ⟨cause, (step_of_error hback between).1, (step_of_error happend console).1⟩

end Console

/-- **A console holds exactly the bytes that it took.** After any requests to an empty console, the
encoding of its text is what was printed and what was written with success, in order. A write
succeeds and takes all of its bytes exactly if they are well-formed; otherwise it leaves the console
as it was and tells the length of the longest well-formed front of the bytes. Behind well-formed
bytes it makes no difference whether more is written by itself or together with them: both succeed
with the same text, or both are refused for the same reason, which together is found so much further
on. -/
theorem console_holds_what_it_took :
    (∀ requests : List Request,
      let (replies, console) := Console.empty.serve requests
      replies.length = requests.length ∧
        encode console.text.toList = accepted requests replies) ∧
    (∀ (console : Console) (bytes : List UInt8),
      ((∃ after, console.step (.write bytes) = (.taken bytes.length, after) ∧
          console.step (.writeAll bytes) = (.done, after)) ↔ WellFormed bytes) ∧
      ((∃ cause, console.step (.write bytes) = (.fault (.invalidText cause), console) ∧
          console.step (.writeAll bytes) = (.fault (.invalidText cause), console) ∧
          IsGreatest {length | length ≤ bytes.length ∧ WellFormed (bytes.take length)}
            cause.validUpTo ∧
          ∃ what, cause.message = what ++ " from index " ++ toString cause.validUpTo) ↔
        ¬ WellFormed bytes)) ∧
    ∀ (console : Console) (front back : List UInt8), WellFormed front →
      let between := (console.step (.write front)).2
      (∃ after, between.step (.write back) = (.taken back.length, after) ∧
          console.step (.write (front ++ back)) = (.taken (front ++ back).length, after)) ∨
        ∃ cause : Utf8.Error,
          between.step (.write back) = (.fault (.invalidText cause), between) ∧
          console.step (.write (front ++ back)) =
            (.fault (.invalidText ⟨front.length + cause.validUpTo, cause.defect⟩), console) := by
  refine ⟨?_, ?_, ?_⟩
  · intro requests
    exact ⟨Console.length_serve _ _, Console.encode_serve _ _⟩
  · intro console bytes
    exact ⟨Console.exists_step_taken_iff console bytes, Console.exists_step_fault_iff console bytes⟩
  · intro console front back hfront
    exact Console.step_append hfront console back

/-- Half a euro sign behind a letter is refused two bytes further on behind one more letter. -/
theorem half_a_euro_sign_is_refused_further_on :
    WellFormed [0xC3, 0xA9] ∧
      (Console.empty.step (.write ([0xC3, 0xA9] ++ [0x61, 0xE2, 0x82]))).1 =
        .fault (.invalidText ⟨2 + 1, .truncated⟩) := by
  have hfront : WellFormed [0xC3, 0xA9] := ⟨['é'], rfl⟩
  refine ⟨hfront, ?_⟩
  rcases console_holds_what_it_took.2.2 Console.empty [0xC3, 0xA9] [0x61, 0xE2, 0x82] hfront with
    ⟨after, hback, -⟩ | ⟨cause, hback, hboth⟩
  · cases hback
  · cases hback
    rw [hboth]
    rfl

/-! ## Lines -/

/-- **Lines can be put back together.** Take the text of a console after any requests. None of its
lines has a newline in it. There are as many lines as newlines, and one more if the text is not
empty and does not end in a newline. If no carriage return stands directly before a newline, then
the lines joined by newlines, and a newline at the end if the text has one there, are the text. So
lines that have no newline in them and do not end in a carriage return come back if each was written
with a newline after it, in whatever pieces the console took. -/
theorem console_lines_can_be_joined (requests : List Request) :
    let (replies, console) := Console.empty.serve requests
    let chars := console.text.toList
    (∀ line ∈ console.lines, '\n' ∉ line.toList) ∧
      console.lines.length =
        chars.count '\n' + (if chars ≠ [] ∧ chars.getLast? ≠ some '\n' then 1 else 0) ∧
      (¬ ['\r', '\n'] <:+: chars →
        "\n".intercalate console.lines ++ (if chars.getLast? = some '\n' then "\n" else "") =
          console.text) ∧
      ∀ texts : List String,
        (∀ text ∈ texts, '\n' ∉ text.toList ∧ text.toList.getLast? ≠ some '\r') →
        accepted requests replies = encode (String.join (texts.map (· ++ "\n"))).toList →
        console.lines = texts := by
  refine ⟨?_, ?_, ?_, ?_⟩
  · intro line hline
    exact newline_not_mem_lines hline
  · exact length_lines _
  · exact join_lines
  · intro texts hproper haccepted
    have htext : (Console.empty.serve requests).2.text = String.join (texts.map (· ++ "\n")) := by
      have hencode := Console.encode_serve Console.empty requests
      rw [haccepted] at hencode
      exact String.toList_inj.1 (encode_injective hencode)
    rw [Console.lines, htext]
    exact lines_join hproper

/-- Three lines, one of them empty and one with a carriage return inside, in pieces that end
anywhere, with half a letter that is refused between them. -/
theorem three_lines_in_four_pieces :
    let requests : List Request := [.write [0xC3, 0xA9], .write [0xC3], .write [0x0A, 0x0A, 0x61],
      .print "\rb\n"]
    let texts := ["é", "", "a\rb"]
    (∀ text ∈ texts, '\n' ∉ text.toList ∧ text.toList.getLast? ≠ some '\r') ∧
      ¬ ['\r', '\n'] <:+: (Console.empty.serve requests).2.text.toList ∧
      "\n".intercalate (Console.empty.serve requests).2.lines ++ "\n" =
        (Console.empty.serve requests).2.text ∧
      (Console.empty.serve requests).2.lines = texts := by
  intro requests texts
  have hproper : ∀ text ∈ texts, '\n' ∉ text.toList ∧ text.toList.getLast? ≠ some '\r' := by
    decide +kernel
  have hplain : ¬ ['\r', '\n'] <:+: (Console.empty.serve requests).2.text.toList := by
    decide +kernel
  have haccepted : accepted requests (Console.empty.serve requests).1 =
      encode (String.join (texts.map (· ++ "\n"))).toList := by
    decide +kernel
  obtain ⟨-, -, hjoin, hlines⟩ := console_lines_can_be_joined requests
  exact ⟨hproper, hplain, hjoin hplain, hlines texts hproper haccepted⟩

end Primer.Output

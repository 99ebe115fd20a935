import DiceTray.Expr.Eval
import DiceTray.Parse

/-!
# The command line

A run of the program is all or nothing: a text that is no roll ends it before anything is printed.
The text comes from the arguments, with one blank between each two, or from the first line of
standard input where there are none. What a run comes to is an `Outcome`, and what is printed
and returned for it is read off that.
-/

namespace DiceTray.CommandLine

/-- What a run comes to: the line read is no text, the text is no roll, rolling it stopped early, or
every expression has a result. -/
inductive Outcome where
  | unreadable
  | rejected (input : String) (error : ParseError)
  | halted (input : String) (cause : Halt EvalError)
  | rolled (input : String) (results : List (Expr × Rolled))

/-- The bytes of the first line, without the line feed that ends it. -/
def firstLine (bytes : List UInt8) : List UInt8 :=
  bytes.takeWhile (· ≠ 10)

/-- A line without the carriage returns at its end. -/
def trimReturns (line : String) : String :=
  String.ofList (line.toList.reverse.dropWhile (· = '\r')).reverse

/-- The text to roll. There is none if the line that holds it is not UTF-8. -/
def input (args : List String) (stdin : List UInt8) : Option String :=
  match args with
  | [] => (String.fromUTF8? (firstLine stdin).toByteArray).map trimReturns
  | _ :: _ => some (" ".intercalate args)

/-- A run over arguments and standard input, with a roller in some state. -/
def run {σ : Type} (R : Roller σ) (s : σ) (args : List String) (stdin : List UInt8) : Outcome :=
  match input args stdin with
  | none => .unreadable
  | some text =>
    match Roll.parse text with
    | .error error => .rejected text error
    | .ok exprs =>
      match (Expr.evalAll R exprs).run s with
      | .error cause _ => .halted text cause
      | .ok results _ => .rolled text (exprs.zip results)

namespace Outcome

/-- Only a roll that was rolled to its end is a success. -/
def exitCode : Outcome → UInt32
  | .rolled _ _ => 0
  | _ => 1

/-- The text that is rolled, as it is announced. -/
def announcement (input : String) : String :=
  s!"Parsing: {input}\n"

def line (expr : Expr) (rolled : Rolled) : String :=
  s!"{expr}: {rolled}\n"

/-- What is printed: once a roll has been read it is announced, and each result has a line. -/
def stdout : Outcome → String
  | .unreadable | .rejected _ _ => ""
  | .halted input _ => announcement input
  | .rolled input results =>
    announcement input ++ String.join (results.map fun result => line result.1 result.2)

/-- What is reported where there is no result. A text that is no roll is reported on one line, as it
is where the text cannot be drawn with the place marked in it. Only a roller other than the seeded
one can be dry, so there are no given words for that. -/
def stderr : Outcome → String
  | .unreadable => "Unable to read input: stream did not contain valid UTF-8\n"
  | .rejected _ error => s!"Invalid input: {error.message}\n"
  | .halted _ .dry => "Evaluation error: no outcomes left\n"
  | .halted _ (.fault error) => s!"Evaluation error: {error.message}\n"
  | .rolled _ _ => ""

end Outcome

/-- What is asked for where someone is there to answer. -/
def prompt : String := "Enter roll: "

end DiceTray.CommandLine

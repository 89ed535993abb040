import Stonesh.Framework.StringH

/-!
# Formatted output

The part of the `printf` family that a program with strings and integers needs. A format is read
from the front; a conversion takes the next argument, which has to be there and of its kind, and
what is printed for an argument is never read as a format. A precision cuts a string. A call that
fills a buffer leaves as much of the text there as fits in front of the NUL.
-/

namespace CLib

inductive FormatArg
  | str (s : Option CString)
  | int (n : Int)
  deriving DecidableEq

/-- What is printed for an argument; the library prints a NULL string in brackets. -/
def FormatArg.text : FormatArg → List Byte
  | .str s => s.elim (bytes "(null)") CString.bytes
  | .int n => bytes (toString n)

/-- The conversion is one for the kind of the argument. -/
def FormatArg.fits : FormatArg → Byte → Bool
  | .str _, c => c = 115
  | .int _, c => c = 100 ∨ c = 105

mutual

def vformat : List Byte → List FormatArg → Checked (List Byte)
  | [], _ => pure []
  | 37 :: 37 :: format, args => do pure (37 :: (← vformat format args))
  | 37 :: 46 :: format, args => vformatPrecision 0 format args
  | 37 :: c :: format, arg :: args =>
    if arg.fits c then do pure (arg.text ++ (← vformat format args)) else throw .indeterminate
  | 37 :: _, _ => throw .indeterminate
  | c :: format, args => do pure (c :: (← vformat format args))
termination_by structural format => format

/-- The rest of a format inside a conversion, behind the digits of a precision: no more bytes than
that are printed of a string. -/
def vformatPrecision (precision : Nat) : List Byte → List FormatArg → Checked (List Byte)
  | [], _ => throw .indeterminate
  | c :: format, args =>
    if isdigit c then vformatPrecision (precision * 10 + (c.toNat - 48)) format args
    else
      match args with
      | .str s :: args =>
        if c = 115 then do pure ((FormatArg.str s).text.take precision ++ (← vformat format args))
        else throw .indeterminate
      | _ => throw .indeterminate
termination_by structural format => format

end

def vsnprintf (size : Nat) (format : CString) (args : List FormatArg) : Checked CString := do
  pure (.ofList ((← vformat format.bytes args).take (size - 1)))

section
variable {format text : List Byte} {args : List FormatArg} {c : Byte}

theorem vformat_cons (hc : c ≠ 37) :
    vformat (c :: format) args = (do pure (c :: (← vformat format args))) := by
  rw [vformat]
  all_goals simp [hc]

theorem vformat_append (ht : 37 ∉ text) :
    vformat (text ++ format) args = (do pure (text ++ (← vformat format args))) := by
  induction text with
  | nil =>
    rw [List.nil_append]
    cases vformat format args with
    | error e => rfl
    | ok l => rfl
  | cons c text ih =>
    have hc : c ≠ 37 := fun h => ht (by simp [h])
    rw [List.cons_append, vformat_cons hc, ih fun h => ht (List.mem_cons_of_mem _ h)]
    cases vformat format args with
    | error e => rfl
    | ok l => rfl

theorem vformat_str (s : CString) (format : List Byte) (args : List FormatArg) :
    vformat (37 :: 115 :: format) (.str (some s) :: args) =
      (do pure (s.bytes ++ (← vformat format args))) := rfl

theorem vformat_int (n : Int) (format : List Byte) (args : List FormatArg) :
    vformat (37 :: 100 :: format) (.int n :: args) =
      (do pure (bytes (toString n) ++ (← vformat format args))) := rfl

private theorem vformatPrecision_digits {digits : List Byte} (h : ∀ c ∈ digits, isdigit c) (precision : Nat)
    (s : CString) (format : List Byte) (args : List FormatArg) :
    vformatPrecision precision (digits ++ 115 :: format) (.str (some s) :: args) =
      (do pure (s.bytes.take (digits.foldl (fun n c => n * 10 + (c.toNat - 48)) precision) ++
        (← vformat format args))) := by
  induction digits generalizing precision with
  | nil => rfl
  | cons c digits ih =>
    rw [List.cons_append, vformatPrecision, if_pos (h c (by simp)), List.foldl_cons]
    exact ih (fun d hd => h d (List.mem_cons_of_mem _ hd)) _

/-- A string with a precision is printed up to there. -/
theorem vformat_precision {digits : List Byte} (h : ∀ c ∈ digits, isdigit c) (s : CString)
    (format : List Byte) (args : List FormatArg) :
    vformat (37 :: 46 :: (digits ++ 115 :: format)) (.str (some s) :: args) =
      (do pure (s.bytes.take (decimalValue digits) ++ (← vformat format args))) :=
  vformatPrecision_digits h 0 s format args

end

end CLib

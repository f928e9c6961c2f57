import Mathlib.Data.List.Basic
import Mathlib.Algebra.BigOperators.Group.List.Basic
import Mathlib.Algebra.Ring.Nat

/-!
# Compact JSON text

A writer for JSON without white space: strings with the usual escapes, booleans,
arrays and objects whose fields come in a given order. Text is UTF-8 bytes, and the
lemmas say how many bytes a value takes.
-/

namespace JsonText

def hexDigit (n : UInt8) : UInt8 := if n < 10 then 0x30 + n else 0x57 + n

/-- One byte of a string: quotes, backslashes and control characters are escaped. -/
def escape (b : UInt8) : List UInt8 :=
  if b = 0x22 then [0x5c, 0x22]
  else if b = 0x5c then [0x5c, 0x5c]
  else if b = 0x08 then [0x5c, 0x62]
  else if b = 0x0c then [0x5c, 0x66]
  else if b = 0x0a then [0x5c, 0x6e]
  else if b = 0x0d then [0x5c, 0x72]
  else if b = 0x09 then [0x5c, 0x74]
  else if b ≤ 0x1f then [0x5c, 0x75, 0x30, 0x30, hexDigit (b / 16), hexDigit (b % 16)]
  else [b]

def string (text : List UInt8) : List UInt8 := 0x22 :: text.flatMap escape ++ [0x22]

def bool (b : Bool) : List UInt8 :=
  if b then [0x74, 0x72, 0x75, 0x65] else [0x66, 0x61, 0x6c, 0x73, 0x65]

def commas : List (List UInt8) → List UInt8
  | [] => []
  | [item] => item
  | item :: rest => item ++ 0x2c :: commas rest

def array (items : List (List UInt8)) : List UInt8 := 0x5b :: commas items ++ [0x5d]

def field (name value : List UInt8) : List UInt8 := string name ++ 0x3a :: value

def object (fields : List (List UInt8)) : List UInt8 := 0x7b :: commas fields ++ [0x7d]

theorem length_string (text : List UInt8) :
    (string text).length = 2 + (text.map fun b => (escape b).length).sum := by
  simp only [string, List.length_append, List.length_cons, List.length_flatMap, List.length_nil]
  omega

theorem length_bool_le (b : Bool) : (bool b).length ≤ 5 := by cases b <;> decide

theorem length_commas (items : List (List UInt8)) :
    (commas items).length = (items.map List.length).sum + (items.length - 1) := by
  induction items with
  | nil => rfl
  | cons item rest ih =>
      cases rest with
      | nil => simp [commas]
      | cons next rest =>
          simp only [commas, List.length_append, List.length_cons, ih, List.map_cons,
            List.sum_cons]
          omega

theorem length_array (items : List (List UInt8)) :
    (array items).length = 2 + ((items.map List.length).sum + (items.length - 1)) := by
  simp only [array, List.length_append, List.length_cons, List.length_nil, length_commas]
  omega

theorem length_field (name value : List UInt8) :
    (field name value).length = (string name).length + 1 + value.length := by
  simp only [field, List.length_append, List.length_cons]
  omega

theorem length_object (fields : List (List UInt8)) :
    (object fields).length = 2 + ((fields.map List.length).sum + (fields.length - 1)) := by
  simp only [object, List.length_append, List.length_cons, List.length_nil, length_commas]
  omega

end JsonText

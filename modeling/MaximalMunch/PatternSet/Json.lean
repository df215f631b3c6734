import MaximalMunch.Json.Codec
import MaximalMunch.PatternSet.Basic

/-!
# Pattern sets in JSON

A set is a record of `dialect`, `patterns` and `end_of_file`; a pattern is a record of `pattern` and
`value`. The dialect and the value for the end of the text may be missing, and the latter is not written if there
is none.
-/

namespace MaximalMunch

open Json

namespace Dialect

/-- The name of a dialect in data. -/
def name : Dialect → String
  | regex => "regex"
  | glob => "glob"

def form : Form Dialect := .name [regex, glob] name

end Dialect

variable {V : Type}

/-- A pattern whose value has the given form. -/
def Pattern.form (value : Form V) : Form (Pattern V) :=
  .record Pattern.mk <|
    .required "pattern" Pattern.text .text <|
    .required "value" Pattern.value value .done

namespace PatternSet

/-- A set whose values have the given form. -/
def form (value : Form V) : Form (PatternSet V) :=
  .record PatternSet.mk <|
    .field "dialect" dialect Dialect.form (some .regex) (fun _ => false) <|
    .required "patterns" patterns (.list (Pattern.form value)) <|
    .field "end_of_file" endOfText (.optional value) (some none) Option.isNone .done

/-- The set that a text stands for. -/
def ofText? (c : Codec) (value : Form V) (text : String) : Option (PatternSet V) :=
  c.read? (form value) text

end PatternSet

end MaximalMunch

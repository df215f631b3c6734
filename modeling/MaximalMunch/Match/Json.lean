import MaximalMunch.Json.Codec
import MaximalMunch.Match

/-!
# Matches in JSON

A match is a record of `value` and `capture`.
-/

namespace MaximalMunch

open Json

/-- A match whose value has the given form. -/
def Match.form {V : Type} (value : Form V) : Form (Match V) :=
  .record Match.mk <|
    .required "value" Match.value value <|
    .required "capture" Match.capture .text .done

end MaximalMunch

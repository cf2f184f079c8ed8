/-!
# Outbursts

A complaint opens with an outburst: a particle, a minced oath and a resignation, each drawn by chance.

* `Outburst`        one of each;
* `Outburst.draw`   the outburst of three numbers, whatever they are;
* `Outburst.text`   its words.
-/

namespace TableAssembler

/-- A particle, an oath and a resignation. -/
structure Outburst where
  particle : String
  oath : String
  resignation : String
deriving DecidableEq, Repr, Inhabited

namespace Outburst

def particles : List String := ["Oh, ", "Well, ", "Aw, ", "", ""]

def oaths : List String :=
  ["Drat", "Rats", "Nuts", "Fiddlesticks", "Good Grief", "Confound it", "Great Scott", "Crikey"]

def resignations : List String :=
  ["I cannot continue.", "The bytes will have to wait.", "I have no idea what the right answer is."]

/-- An entry of a list that is not empty, counted around it. -/
def pick (choices : List String) (n : Nat) : String := choices[n % choices.length]?.getD ""

def draw (i j k : Nat) : Outburst := ⟨pick particles i, pick oaths j, pick resignations k⟩

def text (o : Outburst) : String := o.particle ++ o.oath ++ "! " ++ o.resignation

end Outburst

end TableAssembler

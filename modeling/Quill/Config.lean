

namespace Quill

structure Config where
  stepLimit : Option Nat
  maxCallDepth : Nat
  echoOutput : Bool
  deriving DecidableEq, Inhabited, Repr

namespace Config

def standard : Config := ⟨none, 10000, false⟩

end Config

end Quill

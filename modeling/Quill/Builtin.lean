import Quill.Builtin.Host
import Quill.Builtin.List
import Quill.Builtin.Type

namespace Quill

namespace Routine

/-- What a built-in method does with a call that fits its signature. -/
def run : Routine → Call → Eval Value
  | object r => r.run
  | error r => r.run
  | lambda r => r.run
  | number r => r.run
  | text r => r.run
  | list r => r.run
  | type r => r.run
  | host r => r.run

end Routine

end Quill

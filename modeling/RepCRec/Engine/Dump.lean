import RepCRec.Container.OStream
import RepCRec.Container.StdString
import RepCRec.Engine.Store

/-!
The text of a dump (`dump` in `site.cc` and `site_manager.cc`): one line for each site between two
rules, with one field for each variable. A field without a copy is blank, and the field of the last
variable ends the line. The two ways to print a line, into a file and to the standard output, differ
in a blank before the number of the site.
-/

namespace RepCRec

open Container (setw)
open Container.StdString

namespace Site

/-- The field of a variable, up to what ends it. -/
def dumpField (id : SiteId) (st : Site) (v : VarId) : List Char :=
  if v.isOdd && id != v.home then "         ".toList
  else 'x' :: setw 2 (decimal v.id) ++ ':' :: setw 5 (decimal (st.vars v).value)

/-- What ends the field: the end of the line after the last variable that has a copy. -/
def dumpEnd (id : SiteId) (v : VarId) : Char :=
  if v.isOdd && id != v.home then '\t' else if v.id = varCount then '\n' else '\t'

/-- What a line begins with. -/
def dumpHead (useFile : Bool) (id : SiteId) : List Char :=
  if useFile then "site".toList ++ setw 2 (decimal id.id) ++ " - ".toList
  else "site ".toList ++ setw 2 (decimal id.id) ++ " - ".toList

/-- `Site::dump`. -/
def dump (useFile : Bool) (id : SiteId) (st : Site) : List Char :=
  dumpHead useFile id ++ VarId.all.flatMap fun v => st.dumpField id v ++ [dumpEnd id v]

end Site

namespace SiteManager

/-- The line before and after the sites. -/
def rule : List Char := "====================================================".toList

/-- `SiteManager::dump`. -/
def dump (useFile : Bool) (sites : SiteId → Site) : List Char :=
  rule ++ '\n' :: (SiteId.all.flatMap fun s => (sites s).dump useFile s) ++ rule ++ ['\n']

end SiteManager

end RepCRec

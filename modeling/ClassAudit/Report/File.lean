import ClassAudit.Failure
import ClassAudit.Files.Tree
import ClassAudit.Report.Basic

/-! # Report files -/

namespace ClassAudit.Report

def save (t : FileTree) (path : Path) (r : Report) : Except Failure FileTree :=
  (t.write path (Text.utf8 r.text)).mapError fun e =>
    .within ("report: write " ++ path.shown) (.file e)

end ClassAudit.Report

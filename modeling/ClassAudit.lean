import ClassAudit.Assembly.File
import ClassAudit.Form.Basic
import ClassAudit.Main
import ClassAudit.Proofs.Assembly.Interning
import ClassAudit.Proofs.Assembly.RoundTrip
import ClassAudit.Proofs.Call.Line
import ClassAudit.Proofs.Call.Spacing
import ClassAudit.Proofs.Check.Coverage
import ClassAudit.Proofs.ClassFile.Collector
import ClassAudit.Proofs.ClassFile.DescriptorGrammar
import ClassAudit.Proofs.ClassFile.ElementValue
import ClassAudit.Proofs.ClassFile.ModifiedUtf8Grammar
import ClassAudit.Proofs.ClassFile.PoolIndex
import ClassAudit.Proofs.ClassFile.Signature.Acceptance
import ClassAudit.Proofs.ClassFile.Visit
import ClassAudit.Proofs.ClassFile.Weaving
import ClassAudit.Proofs.ClassPath.Termination
import ClassAudit.Proofs.ClassPath.Transparency
import ClassAudit.Proofs.Command.Arguments
import ClassAudit.Proofs.Command.Check
import ClassAudit.Proofs.Command.Init
import ClassAudit.Proofs.Config.Setting
import ClassAudit.Proofs.Form
import ClassAudit.Proofs.Import.Packages
import ClassAudit.Proofs.Policy.Conflict
import ClassAudit.Proofs.Policy.Format
import ClassAudit.Proofs.Policy.Monotone
import ClassAudit.Proofs.Policy.Segment
import ClassAudit.Proofs.Report.RoundTrip

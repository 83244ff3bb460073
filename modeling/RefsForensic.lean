import RefsForensic.Core.Unresolved
import RefsForensic.Core.ResolverLaws
import RefsForensic.Core.Paths
import RefsForensic.Core.Format
import RefsForensic.Core.Entries
import RefsForensic.Core.ObjectTableLaws
import RefsForensic.Forensic.AuditLaws
import RefsForensic.Forensic.CarverLaws
import RefsForensic.Forensic.Geometry
import RefsForensic.Forensic.SuperblockLaws
import RefsForensic.Forensic.HiddenNames
import RefsForensic.Forensic.Branches
import RefsForensic.Checked.Surface
import RefsForensic.Checked.Readers
import RefsForensic.Core.PageBudget
import RefsForensic.Core.Commit
import RefsForensic.Forensic.AuditRuns
import RefsForensic.Forensic.History

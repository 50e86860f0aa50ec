import Dialogue.Session
import Dialogue.Proofs.Build.Atomicity
import Dialogue.Proofs.Build.Faults
import Dialogue.Proofs.Build.Generation
import Dialogue.Proofs.Build.Idempotence
import Dialogue.Proofs.Build.Isolation
import Dialogue.Proofs.Build.Lookup
import Dialogue.Proofs.Build.Messages
import Dialogue.Proofs.Build.Places
import Dialogue.Proofs.Build.Reentry
import Dialogue.Proofs.Build.Refusal
import Dialogue.Proofs.Build.Transparency
import Dialogue.Proofs.Build.Verdict
import Dialogue.Proofs.Build.Writes
import Dialogue.Proofs.Config.Acceptance
import Dialogue.Proofs.Localization.Addresses
import Dialogue.Proofs.Localization.Notices
import Dialogue.Proofs.Program.Normal
import Dialogue.Proofs.Project.Replacement
import Dialogue.Proofs.Project.Saved
import Dialogue.Proofs.StringTable.Truncation
import Dialogue.Proofs.Views.History
import Dialogue.Proofs.Views.Shown

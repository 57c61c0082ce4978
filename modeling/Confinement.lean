import Confinement.Main
import Confinement.Manager.Resources
import Confinement.Proofs.Definition.Entries
import Confinement.Proofs.Driver.OwnEntry
import Confinement.Proofs.Generation.Step
import Confinement.Proofs.Generation.Failure
import Confinement.Proofs.Generation.Outcome
import Confinement.Proofs.Generation.Nesting
import Confinement.Proofs.Selinux.Codec
import Confinement.Proofs.Selinux.Exchange
import Confinement.Proofs.Selinux.Isolation
import Confinement.Proofs.Manager.FanOut
import Confinement.Proofs.Manager.Fork
import Confinement.Proofs.Manager.Construction
import Confinement.Proofs.Manager.Resources
import Confinement.Proofs.Manager.Verification
import Confinement.Proofs.AppArmor.Grants
import Confinement.Proofs.AppArmor.History
import Confinement.Proofs.AppArmor.Reading
import Confinement.Proofs.Manager.Assembly
import Confinement.Proofs.Manager.Settling
import Confinement.Proofs.Manager.Lifetime
import Confinement.Proofs.Generation.Checked
import Confinement.Proofs.Generation.Repeated
import Confinement.Proofs.Generation.Unneeded
import Confinement.Proofs.Generation.Restarted
import Confinement.Proofs.Generation.Abandoned
import Confinement.Proofs.Selinux.Demands
import Confinement.Proofs.Selinux.Spelling
import Confinement.Proofs.Selinux.Storage
import Confinement.Proofs.Selinux.Effects
import Confinement.Proofs.Selinux.Numbering
import Confinement.Proofs.Definition.Writing
import Confinement.Proofs.Generation.Models
import Confinement.Proofs.Selinux.Labelling
import Confinement.Proofs.Dac.Codec
import Confinement.Proofs.Host.Owners
import Confinement.Proofs.Dac.Handover
import Confinement.Proofs.Dac.Resources
import Confinement.Proofs.Dac.Reconfiguration
import Confinement.Proofs.Dac.Startup
import Confinement.Proofs.Dac.Verification
import Confinement.Proofs.Process.StartTime
import Confinement.Proofs.Definition.Devices
import Confinement.Proofs.Definition.Files

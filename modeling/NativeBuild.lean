import NativeBuild.CommandLine
import NativeBuild.Proofs.Build.AnyOrder
import NativeBuild.Proofs.Build.Cancellation
import NativeBuild.Proofs.Build.Configuration
import NativeBuild.Proofs.Build.Coupling
import NativeBuild.Proofs.Build.Interruption
import NativeBuild.Proofs.Build.Keeping
import NativeBuild.Proofs.Build.Order
import NativeBuild.Proofs.Build.Placement
import NativeBuild.Proofs.Build.Publication
import NativeBuild.Proofs.Build.Refusal
import NativeBuild.Proofs.Build.Sources
import NativeBuild.Proofs.Build.Tailing
import NativeBuild.Proofs.Checksum.Division
import NativeBuild.Proofs.Diagnostic.Record
import NativeBuild.Proofs.Diagnostic.Rewritten
import NativeBuild.Proofs.Files.Entering
import NativeBuild.Proofs.Files.Filling
import NativeBuild.Proofs.Files.Removal
import NativeBuild.Proofs.Files.Reordered
import NativeBuild.Proofs.Files.Rooted
import NativeBuild.Proofs.Host.Letters
import NativeBuild.Proofs.Host.Triple
import NativeBuild.Proofs.Json.Utf8
import NativeBuild.Proofs.Log.FileSink
import NativeBuild.Proofs.Log.Thresholds
import NativeBuild.Proofs.Manifest.Documents
import NativeBuild.Proofs.Manifest.Position
import NativeBuild.Proofs.Path.Spelling
import NativeBuild.Proofs.Project
import NativeBuild.Proofs.Registry
import NativeBuild.Proofs.Shell.CommandLine
import NativeBuild.Proofs.Staging.Cleaning
import NativeBuild.Proofs.Staging.Stamps
import NativeBuild.Proofs.Staging.Sweeps
import NativeBuild.Proofs.Staging.Visiting
import NativeBuild.Proofs.Streams
import NativeBuild.Proofs.CommandLine
import NativeBuild.Proofs.Log.Entries
import NativeBuild.Proofs.Build.Linking
import NativeBuild.Proofs.Binary64
import NativeBuild.Proofs.Json.Position
import NativeBuild.Proofs.Json.Refusal

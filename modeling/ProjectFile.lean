import ProjectFile.Main
import ProjectFile.Proofs.Evaluation.Failure
import ProjectFile.Proofs.Evaluation.Faithful
import ProjectFile.Proofs.Evaluation.Frameworks
import ProjectFile.Proofs.Memory.History
import ProjectFile.Proofs.Path.Include
import ProjectFile.Proofs.Reader.Endings
import ProjectFile.Proofs.Reader.Evaluators
import ProjectFile.Proofs.Reader.Fallback
import ProjectFile.Proofs.Reader.Locality
import ProjectFile.Proofs.Reader.Outcome
import ProjectFile.Proofs.Reader.Sources
import ProjectFile.Proofs.Reader.WellFormed
import ProjectFile.Proofs.Settings.Names
import ProjectFile.Proofs.Storage.Agreement
import ProjectFile.Proofs.Disk.Files
import ProjectFile.Proofs.Disk.Write
import ProjectFile.Proofs.Xml.Asides
import ProjectFile.Proofs.Project.Alike
import ProjectFile.Proofs.Project.Asides
import ProjectFile.Proofs.Xml.Scan
import ProjectFile.Proofs.Xml.StartTag
import ProjectFile.Proofs.Xml.Written
import ProjectFile.Proofs.Project.Frameworks
import ProjectFile.Proofs.Project.Listing
import ProjectFile.Proofs.Project.Located
import ProjectFile.Proofs.Project.Membership
import ProjectFile.Proofs.Project.Namespaces
import ProjectFile.Proofs.Project.Order
import ProjectFile.Proofs.Project.Packages
import ProjectFile.Proofs.Project.ReadBack
import ProjectFile.Proofs.Project.Semicolons
import ProjectFile.Proofs.Report.Human
import ProjectFile.Proofs.Report.Lossless
import ProjectFile.Proofs.CommandLine.NoEvaluate
import ProjectFile.Proofs.CommandLine.Engine
import ProjectFile.Proofs.Xml.Advance
import ProjectFile.Proofs.Xml.Opening
import ProjectFile.Proofs.Xml.Starts

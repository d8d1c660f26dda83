import TypeWeave.Main
import TypeWeave.Proofs.RegistryLaws
import TypeWeave.Proofs.Canonical
import TypeWeave.Proofs.ClosureExact
import TypeWeave.Proofs.Order
import TypeWeave.Proofs.Safety
import TypeWeave.Proofs.Imports
import TypeWeave.Proofs.Noninterference
import TypeWeave.Proofs.SourceOrder
import TypeWeave.Proofs.TypeExpressions
import TypeWeave.Proofs.Failure
import TypeWeave.Proofs.Paths
import TypeWeave.Proofs.Printed
import TypeWeave.Proofs.Scanning
import TypeWeave.Proofs.Mirroring
import TypeWeave.Proofs.Partition
import TypeWeave.Proofs.SeedOrder
import TypeWeave.Proofs.Termination
import TypeWeave.Proofs.History
import TypeWeave.Proofs.Sessions
import TypeWeave.Proofs.AddedSources
import TypeWeave.Proofs.Writing
import TypeWeave.Proofs.Lexemes
import TypeWeave.Proofs.SpelledUnits
import TypeWeave.Proofs.ProperUnits
import TypeWeave.Proofs.ModulePaths
import TypeWeave.Proofs.ExpressionTexts
import TypeWeave.Proofs.Dialogues
import TypeWeave.Proofs.FullNames
import TypeWeave.Proofs.FileContents
import TypeWeave.Proofs.DeclarationTexts
import TypeWeave.Proofs.Colours
import TypeWeave.Proofs.ImportOrder
import TypeWeave.Proofs.SuperclassScope
import TypeWeave.Proofs.Destinations
import TypeWeave.Proofs.ScanOrder
import TypeWeave.Proofs.KebabCase
import TypeWeave.Proofs.DumpTexts

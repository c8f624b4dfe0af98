import SnippetCatalog.Difference
import SnippetCatalog.Main
import SnippetCatalog.Proofs.FileGrammar
import SnippetCatalog.Proofs.LinePatterns
import SnippetCatalog.Proofs.FirstReadable
import SnippetCatalog.Proofs.SelectedListing
import SnippetCatalog.Proofs.Shadowing
import SnippetCatalog.Proofs.ByteOrder
import SnippetCatalog.Proofs.ShelfHistory
import SnippetCatalog.Proofs.WellFormed
import SnippetCatalog.Proofs.WrittenSnippet
import SnippetCatalog.Proofs.Meetings
import SnippetCatalog.Proofs.Accounting
import SnippetCatalog.Proofs.Delivery
import SnippetCatalog.Proofs.RunUnderWay
import SnippetCatalog.Proofs.JoinedFiles
import SnippetCatalog.Proofs.ShelfGaps
import SnippetCatalog.Proofs.CheckedNames
import SnippetCatalog.Proofs.Expectations
import SnippetCatalog.Proofs.MissingNames
import SnippetCatalog.Proofs.Routes
import SnippetCatalog.Proofs.TrailReadings
import SnippetCatalog.Proofs.ShownEntries
import SnippetCatalog.Proofs.ValueColumns
import SnippetCatalog.Proofs.EntriesInReach
import SnippetCatalog.Proofs.Duplicates
import SnippetCatalog.Proofs.Finding
import SnippetCatalog.Proofs.Introductions
import SnippetCatalog.Proofs.LaterDirectories
import SnippetCatalog.Proofs.ShelfGrowth
import SnippetCatalog.Proofs.LineOrder
import SnippetCatalog.Proofs.BlockLines
import SnippetCatalog.Proofs.Choices
import SnippetCatalog.Proofs.Dependencies
import SnippetCatalog.Proofs.ListDifferences
import SnippetCatalog.Proofs.QuotedText
import SnippetCatalog.Proofs.TagDifferences
import SnippetCatalog.Proofs.FirstDifference
import SnippetCatalog.Proofs.QuotedLists
import SnippetCatalog.Proofs.TidyNames
import SnippetCatalog.Proofs.FiledProblems
import SnippetCatalog.Proofs.ArisingProblems
import SnippetCatalog.Proofs.MessageLines

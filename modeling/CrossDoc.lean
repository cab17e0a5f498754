import CrossDoc.Main
import CrossDoc.Proofs.Filtering
import CrossDoc.Proofs.Merging
import CrossDoc.Proofs.Transforming
import CrossDoc.Proofs.Survival
import CrossDoc.Proofs.Identity
import CrossDoc.Proofs.Translation
import CrossDoc.Proofs.Production
import CrossDoc.Proofs.PageContent
import CrossDoc.Proofs.PageCoverage
import CrossDoc.Proofs.PagePaths
import CrossDoc.Proofs.PageLinks
import CrossDoc.Proofs.LinkResolution
import CrossDoc.Proofs.ApartNames
import CrossDoc.Proofs.OutputPaths
import CrossDoc.Proofs.Precedence
import CrossDoc.Proofs.Registrations
import CrossDoc.Proofs.Ownership
import CrossDoc.Proofs.ListingLines
import CrossDoc.Proofs.ListingShape
import CrossDoc.Proofs.ListingAnswers
import CrossDoc.Proofs.Nesting
import CrossDoc.Proofs.WrittenListing
import CrossDoc.Proofs.ListingRoundTrip
import CrossDoc.Proofs.LogLevels
import CrossDoc.Proofs.MergeOrder
import CrossDoc.Proofs.Regrouping
import CrossDoc.Proofs.Isolation
import CrossDoc.Proofs.PassModules
import CrossDoc.Proofs.FilterOrder
import CrossDoc.Proofs.Exposure
import CrossDoc.Proofs.StageOrder
import CrossDoc.Proofs.Installation
import CrossDoc.Proofs.TransformChain
import CrossDoc.Proofs.ExitCodes
import CrossDoc.Proofs.WrittenConfig
import CrossDoc.Proofs.ConfigRoundTrip
import CrossDoc.Proofs.PoolRuns
import CrossDoc.Proofs.PlatformCoverage
import CrossDoc.Proofs.PageTags
import CrossDoc.Proofs.FilteredMerge
import CrossDoc.Proofs.BuiltinRuns
import CrossDoc.Proofs.OutputDirectory
import CrossDoc.Proofs.Sorting
import CrossDoc.Proofs.Cycles
import CrossDoc.Proofs.JsonGrammar
import CrossDoc.Proofs.SearchIndex
import CrossDoc.Proofs.DirectoryPages
import CrossDoc.Proofs.Survivors
import CrossDoc.Proofs.PlatformVariants
import CrossDoc.Proofs.TableLines
import CrossDoc.Proofs.AlphabeticalIndex
import CrossDoc.Proofs.RepeatedSymbols
import CrossDoc.Proofs.FrontEnds
import CrossDoc.Proofs.Attachments
import CrossDoc.Proofs.PackageLookup
import CrossDoc.Proofs.ConfigComposition
import CrossDoc.Proofs.IntegerLiterals
import CrossDoc.Proofs.PassIdentity
import CrossDoc.Proofs.CommentRoundTrip
import CrossDoc.Proofs.ParameterTypes
import CrossDoc.Proofs.ParameterDefaults
import CrossDoc.Proofs.SourceLinks
import CrossDoc.Proofs.LineEndings
import CrossDoc.Proofs.CarriageReturns
import CrossDoc.Proofs.Navigation
import CrossDoc.Proofs.RelativeLinks
import CrossDoc.Proofs.TreeWriting
import CrossDoc.Proofs.SharedArguments
import CrossDoc.Proofs.MapHistories
import CrossDoc.Proofs.LogRecords
import CrossDoc.Proofs.PrintedIdentities

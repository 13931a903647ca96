import TimeZones.Finder.Load
import TimeZones.Proofs.ContainerFormat
import TimeZones.Proofs.PointQueries
import TimeZones.Proofs.CountryOrder
import TimeZones.Proofs.Sessions
import TimeZones.Proofs.Lookups
import TimeZones.Proofs.Matching
import TimeZones.Proofs.Loads
import TimeZones.Proofs.Reachable
import TimeZones.Proofs.Resolution
import TimeZones.Proofs.SameRules
import TimeZones.Proofs.Transcripts
import TimeZones.Proofs.Modes
import TimeZones.Proofs.Truncation
import TimeZones.Proofs.WrittenConfiguration
import TimeZones.Proofs.Insertions
import TimeZones.Proofs.Summaries
import TimeZones.Proofs.RawOffsets
import TimeZones.Proofs.OffsetSums
import TimeZones.Proofs.RecordFaults
import TimeZones.Proofs.OffsetLookup
import TimeZones.Proofs.FinderZones
import TimeZones.Proofs.Checking
import TimeZones.Proofs.OffsetAgreement
import TimeZones.Proofs.Validation
import TimeZones.Proofs.ContentPlaces
import TimeZones.Proofs.CountrySearch
import TimeZones.Proofs.ReorderedCountries
import TimeZones.Proofs.Fallback
import TimeZones.Proofs.ContainerCuts
import TimeZones.Proofs.RecordBytes
import TimeZones.Proofs.SeparateZones
import TimeZones.Proofs.FailureContexts
import TimeZones.Proofs.CheckedQueries
import TimeZones.Proofs.Identifiers
import TimeZones.Proofs.RulesVersion
import TimeZones.Proofs.SpelledZones
import TimeZones.Proofs.ExchangedTables

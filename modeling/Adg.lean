import Adg.LowerBound
import Adg.GraphExpansion
import Adg.RemovalExactness
import Adg.ResourcePath
import Adg.HistoryWriter
import Adg.Timelines
import Adg.HistoryRuns
import Adg.WatchedIntervals
import Adg.Ingestion
import Adg.LiveEstate
import Adg.Convergence
import Adg.Checkpoints
import Adg.RunObservations
import Adg.ScanRuns
import Adg.ResumeCursor
import Adg.RunInterleaving
import Adg.FinishedRun
import Adg.Reconciliation
import Adg.AuditChain
import Adg.ChangeFields
import Adg.ChangeRules
import Adg.AclNormalForm
import Adg.ChangeClassification
import Adg.ChangeReads
import Adg.PointComparison
import Adg.VersionReads
import Adg.ReviewGeneration
import Adg.Regeneration
import Adg.BaselineVerification
import Adg.ChangePlans
import Adg.SimulationOverlays
import Adg.InstructedEdits
import Adg.InstructionAgreement
import Adg.LinkedRows
import Adg.ReviewCampaigns
import Adg.ReviewCalls
import Adg.ReviewRecords
import Adg.CampaignRecord
import Adg.CanonicalModel
import Adg.SimpleChains
import Adg.RepresentativeLoop
import Adg.CyclicComponents
import Adg.NovelEntries
import Adg.WithheldRights
import Adg.RedundantEntries
import Adg.Verdicts
import Adg.DenialCauses
import Adg.AlertDetection
import Adg.ChangeFeed
import Adg.NoticeLogs
import Adg.AlertPasses
import Adg.InheritanceProjection
import Adg.AclDocument
import Adg.PathSegments
import Adg.PathSpelling
import Adg.PathFolding
import Adg.SimulatedAcls
import Adg.CanonicalAdditions
import Adg.OverlayDigest
import Adg.KeysetPages
import Adg.SubjectPaging
import Adg.CheckpointRaces
import Adg.PresenceDrift
import Adg.HistoryRetention
import Adg.SeverityOrder
import Adg.SilencedChanges
import Adg.GrantDrift
import Adg.DriftReads
import Adg.ChainAppends
import Adg.ChainHeads
import Adg.CampaignCoverage
import Adg.VersionPredecessors
import Adg.AssignmentSlices
import Adg.AclReorderings
import Adg.CompletionReplays
import Adg.StandingProposals
import Adg.BatchDecisions
import Adg.PlanDigests
import Adg.PlanPreconditions
import Adg.PlanExecution
import Adg.PlanRecords
import Adg.NarrowedEntries
import Adg.StoredPlans
import Adg.PlanApprovals
import Adg.PlanMeasurements
import Adg.PlanRaces
import Adg.CanonicalSids
import Adg.FoldedCounts
import Adg.OutboxDrains
import Adg.StarvedDeliveries
import Adg.MembershipExpansion
import Adg.FindingModel
import Adg.FindingRecords
import Adg.FindingLives
import Adg.FindingRaces
import Adg.WatchedChanges
import Adg.OverlayDocuments
import Adg.ProposalSpelling
import Adg.FactBundles
import Adg.RightsCategories
import Adg.RiskEvidence
import Adg.RiskRules
import Adg.RiskEngine
import Adg.StoredFacts
import Adg.RiskReproduction
import Adg.ShortestRoutes
import Adg.MembershipRoutes
import Adg.ChainReproduction
import Adg.ReproducedFindings
import Adg.RulePasses
import Adg.FirstOfEach
import Adg.InvestigatedAnswers

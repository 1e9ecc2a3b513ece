import Daftari.Access.LeasesProofs
import Daftari.Lifecycle.LockContentsProofs
import Daftari.Curation.TensionFieldsProofs
import Daftari.Curation.EdgeMirrorProofs
import Daftari.Curation.PositionRunsProofs
import Daftari.Curation.ChainViewsProofs
import Daftari.Curation.ClusterLoopsProofs
import Daftari.Curation.LatestCompileProofs
import Daftari.Search.FreshnessProofs
import Daftari.Search.WatcherProofs
import Daftari.Storage.VaultGitignoreProofs
import Daftari.Storage.RestoreProofs
import Daftari.Distill.JoinProofs
import Daftari.Distill.ChatTranscriptProofs
import Daftari.Distill.LandedProofs
import Daftari.Distill.DoneRunsProofs
import Daftari.Tools.AnchorsProofs
import Daftari.Tools.ForeignPositionsProofs
import Daftari.Tools.TierProofs
import Daftari.Tools.LostUpdateProofs
import Daftari.Tools.KeptPartsProofs
import Daftari.Tools.EraseProofs
import Daftari.Tools.TensionLogToolProofs
import Daftari.Consolidate.ShadowProofs
import Daftari.Consolidate.LineageRunsProofs
import Daftari.Consolidate.OldestFirstProofs
import Daftari.Integrations.GateRunsProofs
import Daftari.Integrations.QueueRunsProofs
import Daftari.Integrations.OAuthProofs
import Daftari.Consolidate.EnvelopeProofs
import Daftari.Curation.LaterChangesProofs
import Daftari.Search.ChunkTextProofs
import Daftari.Integrations.AncestryProofs
import Daftari.Integrations.SplitTextProofs
import Daftari.Integrations.RuntimeProofs
import Daftari.Board.MarksProofs
import Daftari.Board.IdentityProofs
import Daftari.Federation.GuardRunsProofs
import Daftari.Sleep.TensionScanRunsProofs
import Daftari.Serve.LimitsRunsProofs
import Daftari.Curation.SupersedeFindingsProofs
import Daftari.Tools.SupersedeTargetsProofs
import Daftari.Tools.PatchEditsProofs
import Daftari.Tools.UpdateMergeProofs
import Daftari.Curation.PositionGuardProofs
import Daftari.Curation.BlastSearchProofs
import Daftari.Serve.ProxyTrustProofs
import Daftari.Serve.SessionProofs
import Daftari.Serve.SlotsProofs
import Daftari.Attest.VerifyProofs
import Daftari.Integrations.NotificationsProofs
import Daftari.Search.TokenCapProofs
import Daftari.Search.FieldFiltersProofs
import Daftari.Import.LanggraphStoreProofs
import Daftari.Search.ValidAtSourceProofs

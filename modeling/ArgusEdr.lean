import ArgusEdr.Decode.DnsTheorems
import ArgusEdr.Enrich.Containers
import ArgusEdr.Enrich.Hasher
import ArgusEdr.Agent.NameGuard
import ArgusEdr.Agent.BlockTheorems
import ArgusEdr.Agent.Watchdog
import ArgusEdr.Sensor.ArgvTheorems
import ArgusEdr.Sensor.CredFileTheorems
import ArgusEdr.Sensor.HostTheorems
import ArgusEdr.Intel.Matcher
import ArgusEdr.Anomaly.Detector
import ArgusEdr.Metrics.Exposition
import ArgusEdr.Output.FileSink
import ArgusEdr.Output.Loki
import ArgusEdr.Detect.TrackedTheorems
import ArgusEdr.Detect.Pack
import ArgusEdr.Detect.RuleTests
import ArgusEdr.Agent.PipelineTheorems
import ArgusEdr.Hunt.LoadTheorems
import ArgusEdr.Agent.RulePaths
import ArgusEdr.Server.RulesetTheorems
import ArgusEdr.Server.SoarRunsTheorems
import ArgusEdr.Server.ControlPlaneTheorems
import ArgusEdr.Server.Integrations
import ArgusEdr.Server.Graph
import ArgusEdr.Server.Stream
import ArgusEdr.Server.AuditTheorems
import ArgusEdr.Server.CrossHostPeriods
import ArgusEdr.Server.ReportHosts
import ArgusEdr.Server.AlertHook
import ArgusEdr.Server.DeliveryTheorems
import ArgusEdr.Fleet.RunnerTheorems
import ArgusEdr.Fleet.Reporter
import ArgusEdr.Fleet.Keypair
import ArgusEdr.EventStore.LakeTheorems
import ArgusEdr.Hunt.SequenceTheorems
import ArgusEdr.Hunt.PipeTheorems
import ArgusEdr.Hunt.WindowTheorems
import ArgusEdr.Sigma.SelectionMeaning
import ArgusEdr.Sigma.WildcardTheorems
import ArgusEdr.Sigma.ConvertTheorems
import ArgusEdr.Yara.PrintTheorems
import ArgusEdr.Yara.QuantifierTheorems

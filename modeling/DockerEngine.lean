import DockerEngine.Archive.Append
import DockerEngine.Archive.ChangeList
import DockerEngine.Archive.Confine
import DockerEngine.Archive.Exclude
import DockerEngine.Archive.Links
import DockerEngine.Archive.Rebase
import DockerEngine.Archive.RoundTrip
import DockerEngine.Archive.Walker
import DockerEngine.Aufs.Mount
import DockerEngine.Builder.AddPath
import DockerEngine.Builder.CopyInfo
import DockerEngine.Builder.From
import DockerEngine.Containers.Create
import DockerEngine.Containers.Flags
import DockerEngine.Containers.Listing
import DockerEngine.Containers.Removal
import DockerEngine.Containers.Restart
import DockerEngine.Devmapper.IDMap
import DockerEngine.Devmapper.MountDevice
import DockerEngine.Devmapper.Restart
import DockerEngine.Events.Events
import DockerEngine.Execdriver.Capabilities
import DockerEngine.Httputils.Resumable
import DockerEngine.Images.Durable
import DockerEngine.Images.Export
import DockerEngine.Images.Listing
import DockerEngine.Images.MakeConfig
import DockerEngine.Images.Untag
import DockerEngine.Ioutils.BufReader
import DockerEngine.Jsonfilelog.ReadDuring
import DockerEngine.Opts.VolumeSpec
import DockerEngine.Pubsub.Publisher
import DockerEngine.Pull.Download
import DockerEngine.Pull.Parallel
import DockerEngine.Pull.Reuse
import DockerEngine.Registry.AuthTransport
import DockerEngine.Runconfig.Config
import DockerEngine.Stdcopy.StdCopy
import DockerEngine.Symlink.Scope
import DockerEngine.Tailfile.TailFile
import DockerEngine.Tarsum.Remove
import DockerEngine.Truncindex.TruncIndex
import DockerEngine.Units.Size
import DockerEngine.Utils.EnvValues
import DockerEngine.Volumes.Resource
import DockerEngine.Volumes.SortMounts

import PipelineLint.Text.Lines

/-! # Fixed vocabularies

The names that the platform itself defines: built-in steps, job types, statuses, and the images and
resource classes of each family of machines.
-/

namespace PipelineLint.Catalog

/-- Step keys that the platform itself carries out. -/
def builtInSteps : List String :=
  ["run", "checkout", "setup_remote_docker", "save_cache", "restore_cache", "store_artifacts",
   "store_test_results", "persist_to_workspace", "attach_workspace", "add_ssh_keys", "steps",
   "when", "unless"]

/-- The values of the `type` key of a job. -/
def jobTypes : List String :=
  ["build", "approval", "no-op", "release", "lock", "unlock"]

def steplessJobTypes : List String :=
  ["approval", "no-op", "release"]

def requireStatuses : List String :=
  ["success", "failed", "canceled", "not_run"]

/-- The values of the `when` key of a run step. -/
def runWhenKeywords : List String :=
  ["on_success", "always", "on_fail"]

def linuxImages : List String :=
  ["ubuntu-2004:2024.11.1", "ubuntu-2004:2024.08.1", "ubuntu-2004:2024.05.1",
   "ubuntu-2004:2024.04.4", "ubuntu-2004:2024.01.2", "ubuntu-2004:2024.01.1",
   "ubuntu-2004:2023.10.1", "ubuntu-2004:2023.07.1", "ubuntu-2004:2023.04.2",
   "ubuntu-2004:2023.04.1", "ubuntu-2004:2023.02.1", "ubuntu-2004:2022.10.1",
   "ubuntu-2004:2022.07.1", "ubuntu-2004:2022.04.2", "ubuntu-2004:2022.04.1",
   "ubuntu-2004:202201-02", "ubuntu-2004:202201-01", "ubuntu-2004:202111-02",
   "ubuntu-2004:202111-01", "ubuntu-2004:202107-02", "ubuntu-2004:202104-01",
   "ubuntu-2004:202101-01", "ubuntu-2004:202010-01", "ubuntu-2004:current",
   "ubuntu-2004:edge", "ubuntu-2204:2024.11.1", "ubuntu-2204:2024.08.1",
   "ubuntu-2204:2024.05.1", "ubuntu-2204:2024.04.4", "ubuntu-2204:2024.01.2",
   "ubuntu-2204:2024.01.1", "ubuntu-2204:2023.10.1", "ubuntu-2204:2023.07.2",
   "ubuntu-2204:2023.04.2", "ubuntu-2204:2023.04.1", "ubuntu-2204:2023.02.1",
   "ubuntu-2204:2022.10.2", "ubuntu-2204:2022.10.1", "ubuntu-2204:2022.07.2",
   "ubuntu-2204:2022.07.1", "ubuntu-2204:2022.04.2", "ubuntu-2204:2022.04.1",
   "ubuntu-2204:current", "ubuntu-2204:edge", "ubuntu-2404:2024.11.1",
   "ubuntu-2404:2024.08.1", "ubuntu-2404:2024.05.1", "ubuntu-2404:current",
   "ubuntu-2404:edge", "android:2024.11.1", "android:2024.04.1", "android:2024.01.1",
   "android:2023.11.1", "android:2023.10.1", "android:2023.09.1", "android:2023.08.1",
   "android:2023.07.1", "android:2023.06.1", "android:2023.05.1", "android:2023.04.1",
   "android:2023.03.1", "android:2023.02.1", "android:2022.12.1", "android:2022.09.1",
   "android:2022.08.1", "android:2022.07.1", "android:2022.06.2", "android:2022.06.1",
   "android:2022.04.1", "android:2022.03.1", "android:2022.01.1", "android:2021.12.1",
   "android:2021.10.1", "android:202102-01"]

/-- Resource classes of Linux machines; the empty text stands for "not given". -/
def linuxResourceClasses : List String :=
  ["small", "medium", "medium+", "large", "xlarge", "2xlarge", "2xlarge+", "arm.medium",
   "arm.large", "arm.xlarge", "arm.2xlarge", ""]

def windowsImages : List String :=
  ["windows-server-2019-vs2019:2024.12.1", "windows-server-2019-vs2019:2024.05.1",
   "windows-server-2019-vs2019:2024.01.1", "windows-server-2019-vs2019:2023.10.1",
   "windows-server-2019-vs2019:2023.08.1", "windows-server-2019-vs2019:2023.04.1",
   "windows-server-2019-vs2019:2022.08.1", "windows-server-2019-vs2019:current",
   "windows-server-2019-vs2019:edge", "windows-server-2022-gui:2024.04.1",
   "windows-server-2022-gui:2024.01.1", "windows-server-2022-gui:2023.11.1",
   "windows-server-2022-gui:2023.10.1", "windows-server-2022-gui:2023.09.1",
   "windows-server-2022-gui:2023.08.1", "windows-server-2022-gui:2023.07.1",
   "windows-server-2022-gui:2023.06.1", "windows-server-2022-gui:2023.05.1",
   "windows-server-2022-gui:2023.04.1", "windows-server-2022-gui:2023.03.1",
   "windows-server-2022-gui:2022.08.1", "windows-server-2022-gui:2022.07.1",
   "windows-server-2022-gui:2022.06.1", "windows-server-2022-gui:2022.04.1",
   "windows-server-2022-gui:current", "windows-server-2022-gui:edge"]

def windowsResourceClasses : List String :=
  ["windows.medium", "windows.large", "windows.xlarge", "windows.2xlarge"]

/-- Images of Linux machines with a graphics processor. -/
def linuxGpuImages : List String :=
  ["linux-cuda-11:default", "linux-cuda-11:edge", "linux-cuda-12:default",
   "linux-cuda-12:edge"]

/-- Resource classes of Linux machines with a graphics processor. -/
def linuxGpuResourceClasses : List String :=
  ["gpu.nvidia.small.gen2", "gpu.nvidia.small.multi", "gpu.nvidia.medium.multi",
   "gpu.nvidia.medium", "gpu.nvidia.large"]

/-- Images of Windows machines with a graphics processor. -/
def windowsGpuImages : List String :=
  ["windows-server-2019-cuda:current", "windows-server-2019-cuda:edge"]

/-- Resource classes of Windows machines with a graphics processor. -/
def windowsGpuResourceClasses : List String :=
  ["windows.gpu.nvidia.medium"]

def xcodeAppleSiliconVersions : List String :=
  ["16.0.0", "15.4.0", "15.3.0", "15.2.0", "15.1.0", "15.0.0", "14.3.1", "14.2.0", "14.1.0",
   "14.0.1", "13.4.1"]

/-- Xcode versions that still run on Intel hosts. -/
def xcodeIntelVersions : List String :=
  ["13.2.1", "13.1.0", "13.0.0", "12.5.1", "12.4.0", "12.3.0", "12.2.0", "12.1.1", "12.0.1",
   "11.7.0", "11.6.0", "11.5.0", "11.4.1", "11.3.1", "11.2.1", "11.1.0", "11.0.0", "10.3.0"]

def macosAppleSiliconResourceClasses : List String :=
  ["macos.m1.medium.gen1", "macos.m1.large.gen1", "m2pro.medium", "m2pro.large", ""]

def macosIntelResourceClasses : List String :=
  ["medium", "large", "macos.x86.medium.gen2", "macos.x86.metal.gen1", ""]

def currentLinuxImage : String := "ubuntu-2404:current"

def isBuiltInStep (name : String) : Bool :=
  builtInSteps.contains name

structure MachineFamily where
  name : String
  images : List String
  resourceClasses : List String
  deriving DecidableEq, Repr

namespace MachineFamily

/-- Linux on plain or ARM processors, Android included. -/
def linux : MachineFamily := ⟨"linux", linuxImages, linuxResourceClasses⟩

def windows : MachineFamily := ⟨"windows", windowsImages, windowsResourceClasses⟩

def linuxGpu : MachineFamily := ⟨"linux-gpu", linuxGpuImages, linuxGpuResourceClasses⟩

def windowsGpu : MachineFamily := ⟨"windows-gpu", windowsGpuImages, windowsGpuResourceClasses⟩

def all : List MachineFamily := [linux, windows, linuxGpu, windowsGpu]

/-- The family that the beginning of a resource class tells; Linux where it tells none. -/
def ofResourceClass (resourceClass : String) : MachineFamily :=
  let cs := resourceClass.toList
  if Text.startsWith cs "windows.gpu.".toList then windowsGpu
  else if Text.startsWith cs "gpu.nvidia.".toList then linuxGpu
  else if Text.startsWith cs "windows.".toList then windows
  else linux

end MachineFamily

def isMachineResourceClass (resourceClass : String) : Bool :=
  MachineFamily.all.any (·.resourceClasses.contains resourceClass)

def isMachineImage (image : String) : Bool :=
  MachineFamily.all.any (·.images.contains image)

/-- The resource class names a self-hosted runner, which is written `owner/name`. -/
def isSelfHostedRunner (resourceClass : String) : Bool :=
  resourceClass.toList.contains '/'

end PipelineLint.Catalog
